/-
Which name is suggested for a word. It is put in without asking exactly if it is the only other name
that a single slip leads to; else it is a hint, the first declared among the nearest names, as long as
these are no more than two slips away.
-/
import Parley.Proofs.Analysis.Order
import Parley.Proofs.Text.Distance

namespace Parley

open Distance

/-! ## The first of the least -/

section FirstLeast

variable {α : Type} {key : α → Nat} {p : α → Bool} {x y : α} {xs : List α}

/-- The first of those members of a list whose key is the least. -/
def FirstLeast (key : α → Nat) (xs : List α) (x : α) : Prop :=
  ∃ before after, xs = before ++ x :: after ∧ (∀ y ∈ before, key x < key y) ∧ ∀ y ∈ after, key x ≤ key y

theorem firstLeast_cons : FirstLeast key (y :: xs) x ↔
    (y = x ∧ ∀ z ∈ xs, key x ≤ key z) ∨ (FirstLeast key xs x ∧ key x < key y) := by
  constructor
  · rintro ⟨_ | ⟨z, before⟩, after, hxs, hbefore, hafter⟩
    · obtain ⟨rfl, rfl⟩ := List.cons.inj hxs
      exact .inl ⟨rfl, hafter⟩
    · obtain ⟨rfl, rfl⟩ := List.cons.inj hxs
      obtain ⟨hy, hbefore⟩ := List.forall_mem_cons.1 hbefore
      exact .inr ⟨⟨before, after, rfl, hbefore, hafter⟩, hy⟩
  · rintro (⟨rfl, hall⟩ | ⟨⟨before, after, rfl, hbefore, hafter⟩, hy⟩)
    · exact ⟨[], xs, rfl, nofun, hall⟩
    · exact ⟨y :: before, after, rfl, List.forall_mem_cons.2 ⟨hy, hbefore⟩, hafter⟩

/-- Sorting brings the first of the least to the front. -/
theorem head?_mergeSort_iff : (xs.mergeSort fun a b => decide (key a ≤ key b)).head? = some x ↔ FirstLeast key xs x := by
  have htrans : ∀ a b c : α, decide (key a ≤ key b) = true → decide (key b ≤ key c) = true → decide (key a ≤ key c) = true := by
    simp only [decide_eq_true_eq]
    omega
  have htotal : ∀ a b : α, (decide (key a ≤ key b) || decide (key b ≤ key a)) = true := by
    simp only [Bool.or_eq_true, decide_eq_true_eq]
    omega
  induction xs with
  | nil =>
    rw [List.mergeSort_nil]
    refine ⟨nofun, ?_⟩
    rintro ⟨before, after, h, -⟩
    simp at h
  | cons y xs ih =>
    -- the sorted list of all is that of the rest with `y` put in before everything that is not less
    obtain ⟨front, rest, hall, hrest, hfront⟩ := List.mergeSort_cons htrans htotal y xs
    have hmem : ∀ z, z ∈ front ++ rest ↔ z ∈ xs := fun z => by rw [← hrest, List.mem_mergeSort]
    have hsorted := List.pairwise_mergeSort htrans htotal (y :: xs)
    have hhead : (front ++ rest).head? = some x ↔ FirstLeast key xs x := hrest ▸ ih
    rw [hall] at hsorted
    rw [firstLeast_cons, ← hhead, hall]
    cases front with
    | nil =>
      have hleast : ∀ z ∈ xs, key y ≤ key z := fun z hz =>
        of_decide_eq_true (List.rel_of_pairwise_cons hsorted ((hmem z).2 hz))
      simp only [List.nil_append, List.head?_cons, Option.some.injEq]
      constructor
      · rintro rfl
        exact .inl ⟨rfl, hleast⟩
      · rintro (⟨rfl, -⟩ | ⟨hx, hlt⟩)
        · rfl
        · have := hleast x ((hmem x).1 (List.mem_of_mem_head? hx))
          omega
    | cons z front =>
      have hlt : key z < key y := by simpa using hfront z List.mem_cons_self
      simp only [List.cons_append, List.head?_cons, Option.some.injEq]
      constructor
      · rintro rfl
        exact .inr ⟨rfl, hlt⟩
      · rintro (⟨rfl, hall⟩ | ⟨rfl, -⟩)
        · have := hall z ((hmem z).1 List.mem_cons_self)
          omega
        · rfl

theorem firstLeast_filter : FirstLeast key (xs.filter p) x ↔
    p x = true ∧ ∃ before after, xs = before ++ x :: after ∧ (∀ y ∈ before, p y = true → key x < key y) ∧
      ∀ y ∈ after, p y = true → key x ≤ key y := by
  constructor
  · rintro ⟨before, after, hxs, hbefore, hafter⟩
    obtain ⟨us, vs, rfl, rfl, hvs⟩ := List.filter_eq_append_iff.1 hxs
    obtain ⟨ws, after', rfl, hws, hx, rfl⟩ := List.filter_eq_cons_iff.1 hvs
    refine ⟨hx, us ++ ws, after', by simp, fun y hy hp => ?_, fun y hy hp => hafter y (List.mem_filter.2 ⟨hy, hp⟩)⟩
    rcases List.mem_append.1 hy with hy | hy
    · exact hbefore y (List.mem_filter.2 ⟨hy, hp⟩)
    · exact absurd hp (hws y hy)
  · rintro ⟨hx, before, after, rfl, hbefore, hafter⟩
    refine ⟨before.filter p, after.filter p, by simp [hx], fun y hy => ?_, fun y hy => ?_⟩
    · obtain ⟨hy, hp⟩ := List.mem_filter.1 hy
      exact hbefore y hy hp
    · obtain ⟨hy, hp⟩ := List.mem_filter.1 hy
      exact hafter y hy hp

end FirstLeast

/-! ## Suggestions -/

namespace Suggestion

variable (word : String) (names : List String)

/-- The only other name that a single slip leads to. -/
def OnlySlip (name : String) : Prop :=
  ∀ other, (other ∈ names ∧ other ≠ word ∧ Slip word.toList other.toList) ↔ other = name

/-- The first declared among the other names that the fewest slips lead to, which are two at most. -/
def Nearest (name : String) : Prop :=
  ∃ n ≤ 2, ∃ before after, names = before ++ name :: after ∧ name ≠ word ∧ Slips n word.toList name.toList ∧
    (∀ other ∈ names, other ≠ word → ∀ m, Slips m word.toList other.toList → n ≤ m) ∧
    ∀ other ∈ before, other ≠ word → ∀ m, Slips m word.toList other.toList → n < m

/-- The other names near a word. -/
def near : List String := names.filter fun name => decide (name ≠ word) && decide (between word name ≤ hintReach)

theorem mem_near {name : String} : name ∈ near word names ↔ name ∈ names ∧ name ≠ word ∧ between word name ≤ hintReach := by
  simp [near]

theorem mem_close {name : String} : name ∈ close word names ↔ name ∈ names ∧ name ≠ word ∧ Slip word.toList name.toList := by
  simp only [close, List.mem_filter, Bool.and_eq_true, decide_eq_true_eq]
  exact and_congr_right fun _ => and_congr_right fun hne => between_le_one_iff hne

/-- The first of the near names is suggested. -/
theorem among_eq : among word names =
    ((near word names).mergeSort fun a b => decide (between word a ≤ between word b)).head?.map
      fun name => ⟨name, (close word names).length == 1⟩ := by
  have hranked : ranked word names =
      ((near word names).mergeSort fun a b => decide (between word a ≤ between word b)).map
        fun name => (name, between word name) := by
    have hnear : ((names.filter (· ≠ word)).map fun name => (name, between word name)).filter
        (fun e => decide (e.2 ≤ hintReach)) = (near word names).map fun name => (name, between word name) := by
      rw [List.filter_map, List.filter_filter, near]
      exact congrArg _ (List.filter_congr fun name _ => Bool.and_comm _ _)
    have hsort := List.map_mergeSort (l := near word names) (r := fun a b => decide (between word a ≤ between word b))
      (s := fun a b : String × Nat => decide (a.2 ≤ b.2)) (f := fun name => (name, between word name)) fun _ _ _ _ => rfl
    rw [hsort, ← hnear]
    rfl
  have hclose := (close_ranked word names).length_eq
  rw [List.length_map] at hclose
  unfold among
  dsimp only
  rw [hclose, hranked, List.head?_map, Option.map_map]
  rfl

variable {word names} {name : String}

theorem close_eq_singleton_iff (hnames : names.Nodup) : close word names = [name] ↔ OnlySlip word names name := by
  have hclose : (close word names).Nodup := hnames.filter _
  rw [← List.perm_singleton, List.perm_ext_iff_of_nodup hclose (List.nodup_singleton name)]
  refine forall_congr' fun other => ?_
  rw [mem_close, List.mem_singleton]

theorem nearest_iff : Nearest word names name ↔ FirstLeast (between word) (near word names) name := by
  rw [near, firstLeast_filter]
  simp only [Bool.and_eq_true, decide_eq_true_eq]
  constructor
  · rintro ⟨n, hn, before, after, hnames, hne, hslips, hleast, hbefore⟩
    have hle : between word name ≤ n := (isLeast_between word name).2 hslips
    refine ⟨⟨hne, hle.trans hn⟩, before, after, hnames, fun other hother h => ?_, fun other hother h => ?_⟩
    · exact hle.trans_lt (hbefore other hother h.1 _ (isLeast_between word other).1)
    · have hmem : other ∈ names := hnames ▸ List.mem_append_right _ (List.mem_cons_of_mem _ hother)
      exact hle.trans (hleast other hmem h.1 _ (isLeast_between word other).1)
  · rintro ⟨⟨hne, hreach⟩, before, after, rfl, hbefore, hafter⟩
    -- a name that is too far for a hint is farther away than the nearest, too
    have hlt : ∀ other ∈ before, other ≠ word → between word name < between word other := by
      intro other hother hother'
      by_cases hfar : between word other ≤ hintReach
      · exact hbefore other hother ⟨hother', hfar⟩
      · exact hreach.trans_lt (Nat.lt_of_not_le hfar)
    have hle : ∀ other ∈ before ++ name :: after, other ≠ word → between word name ≤ between word other := by
      intro other hother hother'
      rcases List.mem_append.1 hother with hother | hother
      · exact (hlt other hother hother').le
      rcases List.mem_cons.1 hother with rfl | hother
      · exact Nat.le_refl _
      by_cases hfar : between word other ≤ hintReach
      · exact hafter other hother ⟨hother', hfar⟩
      · exact hreach.trans (Nat.le_of_not_le hfar)
    refine ⟨between word name, hreach, before, after, rfl, hne, (isLeast_between word name).1,
      fun other hother hother' m hm => ?_, fun other hother hother' m hm => ?_⟩
    · exact (hle other hother hother').trans ((isLeast_between word other).2 hm)
    · exact (hlt other hother hother').trans_le ((isLeast_between word other).2 hm)

/-- A name is put in without asking exactly if it is the only other name that a single slip leads to.
Otherwise the first declared of the nearest other names is a hint, unless it takes more than two slips to
any of them. -/
theorem among_exact (word : String) (names : List String) (hnames : names.Nodup) :
    (∀ name, among word names = some ⟨name, true⟩ ↔ OnlySlip word names name) ∧
    (∀ name, among word names = some ⟨name, false⟩ ↔ (¬ ∃ other, OnlySlip word names other) ∧ Nearest word names name) ∧
    (among word names = none ↔ ∀ name ∈ names, name ≠ word → ∀ n ≤ 2, ¬ Slips n word.toList name.toList) := by
  refine ⟨fun name => ?_, fun name => ?_, ?_⟩
  · rw [among_fixable_iff, close_eq_singleton_iff hnames]
  · have honly : (∃ other, OnlySlip word names other) ↔ (close word names).length = 1 := by
      rw [List.length_eq_one_iff]
      exact exists_congr fun other => (close_eq_singleton_iff hnames).symm
    rw [among_eq, nearest_iff, ← head?_mergeSort_iff, honly, Option.map_eq_some_iff]
    simp only [mk.injEq, beq_eq_false_iff_ne]
    constructor
    · rintro ⟨_, hhead, rfl, hlength⟩
      exact ⟨hlength, hhead⟩
    · rintro ⟨hlength, hhead⟩
      exact ⟨name, hhead, rfl, hlength⟩
  · rw [among_eq, Option.map_eq_none_iff, List.head?_eq_none_iff, ← List.length_eq_zero_iff, List.length_mergeSort,
      List.length_eq_zero_iff, List.eq_nil_iff_forall_not_mem]
    simp only [mem_near, between_le_iff]
    constructor
    · exact fun h name hmem hne n hn hslips => h name ⟨hmem, hne, n, hn, hslips⟩
    · rintro h name ⟨hmem, hne, n, hn, hslips⟩
      exact h name hmem hne n hn hslips

/-- The word itself is no candidate. Of two names that are a single slip away the first declared is a hint, though a
name before it is two slips away; a name that is alone so near is put in. Two letters exchanged for each other are
two slips. -/
theorem among_of_near_names :
    (["Bid", "Build", "Bad", "Bit"].Nodup ∧ among "Bid" ["Bid", "Build", "Bad", "Bit"] = some ⟨"Bad", false⟩ ∧
      (¬ ∃ other, OnlySlip "Bid" ["Bid", "Build", "Bad", "Bit"] other) ∧
      Nearest "Bid" ["Bid", "Build", "Bad", "Bit"] "Bad") ∧
    (["Over", "Offer"].Nodup ∧ among "Offr" ["Over", "Offer"] = some ⟨"Offer", true⟩ ∧ OnlySlip "Offr" ["Over", "Offer"] "Offer") ∧
    (["Offer"].Nodup ∧ among "Ofefr" ["Offer"] = some ⟨"Offer", false⟩ ∧ ¬ ∃ other, OnlySlip "Ofefr" ["Offer"] other) ∧
    ["Settle"].Nodup ∧ ∀ n ≤ 2, ¬ Slips n "Bid".toList "Settle".toList := by
  have htied : among "Bid" ["Bid", "Build", "Bad", "Bit"] = some ⟨"Bad", false⟩ := by cbv
  have halone : among "Offr" ["Over", "Offer"] = some ⟨"Offer", true⟩ := by cbv
  have hturned : among "Ofefr" ["Offer"] = some ⟨"Offer", false⟩ := by cbv
  have hfar : among "Bid" ["Settle"] = none := by cbv
  obtain ⟨-, hhint, -⟩ := among_exact "Bid" ["Bid", "Build", "Bad", "Bit"] (by decide)
  obtain ⟨hfix, -, -⟩ := among_exact "Offr" ["Over", "Offer"] (by decide)
  obtain ⟨-, hhint', -⟩ := among_exact "Ofefr" ["Offer"] (by decide)
  obtain ⟨-, -, hnone⟩ := among_exact "Bid" ["Settle"] (by decide)
  exact ⟨⟨by decide, htied, (hhint _).1 htied⟩, ⟨by decide, halone, (hfix _).1 halone⟩,
    ⟨by decide, hturned, ((hhint' _).1 hturned).1⟩, by decide, hnone.1 hfar "Settle" List.mem_cons_self (by decide)⟩

end Suggestion

end Parley
