/-
The order of paths. Components are ordered by their kind, and names by their characters, so paths have a
total order by their components; the transaction directories of a tree are always found, in this order.
-/
import Parley.Proofs.Files.Discovery
import Mathlib.Data.String.Basic

namespace Parley

namespace Path

theorem Component.lt_iff {a b : Component} : a.lt b = true ↔
    (∃ s t, a = .name s ∧ b = .name t ∧ s < t) ∨ a.rank < b.rank := by
  cases a <;> cases b <;> simp [Component.lt, rank]

theorem Component.lt_irrefl (a : Component) : a.lt a = false := by
  cases a <;> simp [Component.lt]

theorem Component.lt_trans {a b c : Component} (h : a.lt b = true) (h' : b.lt c = true) : a.lt c = true := by
  rw [lt_iff] at h h' ⊢
  rcases h with ⟨s, t, rfl, rfl, hst⟩ | hrank <;> rcases h' with ⟨_, u, heq, rfl, htu⟩ | hrank'
  · obtain rfl := Component.name.inj heq
    exact .inl ⟨s, u, rfl, rfl, String.lt_trans hst htu⟩
  · exact .inr hrank'
  · rw [heq] at hrank
    exact .inr hrank
  · exact .inr (Nat.lt_trans hrank hrank')

theorem Component.lt_or_eq_or_lt (a b : Component) : a.lt b = true ∨ a = b ∨ b.lt a = true := by
  rw [lt_iff, lt_iff]
  rcases Nat.lt_trichotomy a.rank b.rank with hlt | heq | hlt
  · exact .inl (.inr hlt)
  · cases a <;> cases b <;> cases heq
    case name.name.refl s t =>
      rcases lt_trichotomy s t with hst | rfl | hts
      · exact .inl (.inl ⟨s, t, rfl, rfl, hst⟩)
      · exact .inr (.inl rfl)
      · exact .inr (.inr (.inl ⟨t, s, rfl, rfl, hts⟩))
    all_goals exact .inr (.inl rfl)
  · exact .inr (.inr (.inr hlt))

theorem componentsLe_cons {a b : Component} {as bs : List Component} :
    componentsLe (a :: as) (b :: bs) = true ↔ a.lt b = true ∨ a = b ∧ componentsLe as bs = true := by
  rw [componentsLe, Bool.or_eq_true, Bool.and_eq_true, beq_iff_eq]

theorem componentsLe_trans {as bs cs : List Component} (h : componentsLe as bs = true) (h' : componentsLe bs cs = true) :
    componentsLe as cs = true := by
  induction as generalizing bs cs with
  | nil => rfl
  | cons a as ih =>
    cases bs with
    | nil => cases h
    | cons b bs =>
      cases cs with
      | nil => cases h'
      | cons c cs =>
        rw [componentsLe_cons] at h h' ⊢
        rcases h with hab | ⟨rfl, h⟩ <;> rcases h' with hbc | ⟨rfl, h'⟩
        · exact .inl (Component.lt_trans hab hbc)
        · exact .inl hab
        · exact .inl hbc
        · exact .inr ⟨rfl, ih h h'⟩

theorem componentsLe_total (as bs : List Component) : componentsLe as bs = true ∨ componentsLe bs as = true := by
  induction as generalizing bs with
  | nil => exact .inl rfl
  | cons a as ih =>
    cases bs with
    | nil => exact .inr rfl
    | cons b bs =>
      rw [componentsLe_cons, componentsLe_cons]
      rcases a.lt_or_eq_or_lt b with hab | rfl | hba
      · exact .inl (.inl hab)
      · exact (ih bs).imp (fun h => .inr ⟨rfl, h⟩) fun h => .inr ⟨rfl, h⟩
      · exact .inr (.inl hba)

theorem componentsLe_append_left (cs as bs : List Component) : componentsLe (cs ++ as) (cs ++ bs) = componentsLe as bs := by
  induction cs with
  | nil => rfl
  | cons c cs ih => rw [List.cons_append, List.cons_append, componentsLe, c.lt_irrefl, beq_self_eq_true, ih, Bool.true_and, Bool.false_or]

/-- Entries of one directory are ordered by their names. -/
theorem le_join_iff (base : String) {a b : String} (ha : IsEntry a) (hb : IsEntry b) :
    le (join base a) (join base b) = true ↔ a ≤ b := by
  rw [le, components_join base ha, components_join base hb, componentsLe_append_left, componentsLe_cons, Component.lt_iff]
  simp [Component.rank, componentsLe, le_iff_lt_or_eq]

theorem pairwise_sort (paths : List String) : (sort paths).Pairwise fun a b => le a b = true := by
  refine List.pairwise_mergeSort (fun a b c h h' => ?_) (fun a b => ?_) paths
  · exact componentsLe_trans h h'
  · rw [Bool.or_eq_true]
    exact componentsLe_total _ _

end Path

namespace Discovery

/-- Directories are found in order, if any. -/
theorem exists_directories (protocol : Protocol) (t : Tree) :
    ∃ directories, directoriesIn protocol t = .ok directories ∧ directories.Pairwise fun a b => Path.le a b = true := by
  unfold directoriesIn
  split
  · rename_i hkind
    obtain ⟨names, hnames⟩ : ∃ names, t.list protocol.transactions = .ok names := by
      rw [beq_iff_eq, Tree.kind] at hkind
      unfold Tree.list
      cases hget : t.get protocol.transactions with
      | error e => simp [hget, Except.toOption] at hkind
      | ok n =>
        cases n with
        | directory entries mode => exact ⟨_, rfl⟩
        | file | link => simp [hget, Except.toOption, Tree.kindOf] at hkind
    rw [hnames]
    exact ⟨_, rfl, Path.pairwise_sort _⟩
  · exact ⟨[], rfl, .nil⟩

theorem kind_of_mem {protocol : Protocol} {t : Tree} {directories : List String} {directory : String}
    (h : directoriesIn protocol t = .ok directories) (hmem : directory ∈ directories) :
    t.kind protocol.transactions = some .directory := by
  unfold directoriesIn at h
  split at h
  · rename_i hkind
    exact eq_of_beq hkind
  · obtain rfl := Except.ok.inj h
    cases hmem

end Discovery

end Parley
