/-
The transaction directories that are found in a tree. They are different entries of the directory of
transactions, joined to its path, and each has a transaction file.
-/
import Parley.Files.Discovery
import Parley.Proofs.Command.Lint
import Parley.Proofs.Files.Name
import Mathlib.Data.List.Nodup

namespace Parley

/-! ## What holds all over a tree -/

mutual

/-- The node and all that lies below it have the property. -/
def Node.All (p : Node → Prop) : Node → Prop
  | .directory entries mode => p (.directory entries mode) ∧ Node.AllIn p entries
  | n => p n

def Node.AllIn (p : Node → Prop) : List (String × Node) → Prop
  | [] => True
  | (_, n) :: rest => n.All p ∧ Node.AllIn p rest

end

theorem Node.All.self {p : Node → Prop} {n : Node} (h : n.All p) : p n := by
  cases n with
  | directory => exact h.1
  | file | link => exact h

theorem Node.AllIn.lookup {p : Node → Prop} {entries : List (String × Node)} {name : String} {n : Node} (h : AllIn p entries)
    (hlookup : entries.lookup name = some n) : n.All p := by
  induction entries with
  | nil => cases hlookup
  | cons e entries ih =>
    rw [List.lookup_cons] at hlookup
    split at hlookup
    · cases hlookup
      exact h.1
    · exact ih h.2 hlookup

namespace Tree

theorem all_findFrom {p : Node → Prop} {n m : Node} {names : List String} (h : n.All p) (hfind : findFrom n names = some m) :
    m.All p := by
  induction names generalizing n with
  | nil => cases hfind; exact h
  | cons name names ih =>
    cases n with
    | directory entries mode =>
      obtain ⟨inner, hlookup, hinner⟩ := Option.bind_eq_some_iff.1 hfind
      exact ih (h.2.lookup hlookup) hinner
    | file | link => cases hfind

/-- Everything in the tree has the property. -/
def Every (p : Node → Prop) (t : Tree) : Prop := ∀ names n, t.find? names = some n → p n

theorem every_of_all {p : Node → Prop} {t : Tree} (h : t.root.All p) : t.Every p :=
  fun _ _ hfind => (all_findFrom h hfind).self

end Tree

/-- The entries of a directory have different names, each of which an entry can have. -/
def Node.HasProperEntries : Node → Prop
  | .directory entries _ => (entries.map Prod.fst).Nodup ∧ ∀ e ∈ entries, IsEntry e.1
  | _ => True

/-- A tree as a system holds it. -/
def Tree.Proper (t : Tree) : Prop := t.Every Node.HasProperEntries

theorem Tree.Proper.list {t : Tree} (h : t.Proper) {path : String} {names : List String} (hlist : t.list path = .ok names) :
    names.Nodup ∧ ∀ name ∈ names, IsEntry name := by
  unfold Tree.list Tree.get at hlist
  cases hresolve : t.resolve path with
  | error e => rw [hresolve] at hlist; cases hlist
  | ok place =>
    simp only [hresolve, bind, Except.bind] at hlist
    cases hfind : t.find? place with
    | none => rw [hfind] at hlist; cases hlist
    | some n =>
      simp only [hfind] at hlist
      cases n with
      | directory entries mode =>
        obtain rfl := Except.ok.inj hlist
        obtain ⟨hnodup, hentries⟩ := h place _ hfind
        exact ⟨hnodup, List.forall_mem_map.2 hentries⟩
      | file | link => cases hlist

/-! ## Transaction directories -/

namespace Discovery

/-- Whether an entry of a directory holds a transaction. -/
def holdsTransaction (t : Tree) (directory name : String) : Bool :=
  name ≠ drawingsDirectory && t.kind (Path.join directory name) == some .directory &&
    t.kind (Path.join (Path.join directory name) transactionFile) == some .file

/-- The transaction directories that a tree holds. -/
def directoriesIn (protocol : Protocol) (t : Tree) : Except DiscoveryError (List String) :=
  if t.kind protocol.transactions == some .directory then
    match t.list protocol.transactions with
    | .error e => .error ⟨protocol.transactions, e⟩
    | .ok names =>
      .ok (Path.sort ((names.filter (holdsTransaction t protocol.transactions)).map (Path.join protocol.transactions)))
  else .ok []

theorem filterM_reads {α : Type} {p : α → StateM Tree Bool} {q : α → Bool} {t : Tree} (h : ∀ x, p x t = (q x, t))
    (xs : List α) : (xs.filterM p : StateM Tree (List α)) t = (xs.filter q, t) := by
  have haux : ∀ acc : List α, (xs.filterAuxM p acc : StateM Tree (List α)) t = ((xs.filter q).reverse ++ acc, t) := by
    induction xs with
    | nil => exact fun acc => rfl
    | cons x xs ih =>
      intro acc
      have hrun : ((x :: xs).filterAuxM p acc : StateM Tree (List α)) t = (xs.filterAuxM p (cond (q x) (x :: acc) acc)) t := by
        simp only [List.filterAuxM, bind, StateT.bind, h]
      rw [hrun, ih]
      cases hq : q x <;> simp [hq]
  have hrun : (xs.filterM p : StateM Tree (List α)) t =
      (((xs.filterAuxM p []) t).1.reverse, ((xs.filterAuxM p []) t).2) := rfl
  rw [hrun, haux]
  simp

theorem isTransaction_eq (t : Tree) (directory name : String) :
    (isTransaction directory name : StateM Tree Bool) t = (holdsTransaction t directory name, t) := by
  unfold isTransaction holdsTransaction isDirectory isFile
  by_cases hdrawings : name = drawingsDirectory
  · simp [hdrawings, Tree.pure_apply]
  · have hkept : decide (name ≠ drawingsDirectory) = true := by simpa using hdrawings
    rw [hkept, if_neg hdrawings]
    simp only [bind, StateT.bind, FileAccess.kind, Tree.pure_apply, Bool.true_and]
    cases t.kind (Path.join directory name) == some .directory <;> rfl

theorem transactionDirectories_eq (protocol : Protocol) (t : Tree) :
    (transactionDirectories protocol : StateM Tree (Except DiscoveryError (List String))) t =
      (directoriesIn protocol t, t) := by
  unfold transactionDirectories isDirectory directoriesIn
  simp only [bind, StateT.bind, FileAccess.kind, FileAccess.list, Tree.pure_apply]
  cases t.kind protocol.transactions == some .directory with
  | false => rfl
  | true =>
    simp only [if_true, StateT.bind]
    generalize t.list protocol.transactions = names
    cases names with
    | error e => rfl
    | ok names =>
      have hfilter := filterM_reads (isTransaction_eq t protocol.transactions) names
      exact congrArg (fun found : List String × Tree => (Except.ok (Path.sort (found.1.map _)), found.2)) hfilter

section Found

variable {protocol : Protocol} {t : Tree} {directories : List String}

theorem mem_directories (ht : t.Proper) (h : directoriesIn protocol t = .ok directories) {directory : String}
    (hmem : directory ∈ directories) : ∃ name, IsEntry name ∧ directory = Path.join protocol.transactions name ∧
      t.kind (Path.join directory transactionFile) = some .file := by
  unfold directoriesIn at h
  split at h
  · cases hlist : t.list protocol.transactions with
    | error e => rw [hlist] at h; cases h
    | ok names =>
      simp only [hlist] at h
      obtain rfl := Except.ok.inj h
      obtain ⟨name, hname, rfl⟩ := List.mem_map.1 (List.mem_mergeSort.1 hmem)
      obtain ⟨hname, hholds⟩ := List.mem_filter.1 hname
      simp only [holdsTransaction, Bool.and_eq_true, beq_iff_eq] at hholds
      exact ⟨name, (ht.list hlist).2 name hname, rfl, hholds.2⟩
  · obtain rfl := Except.ok.inj h
    cases hmem

theorem directories_nodup (ht : t.Proper) (h : directoriesIn protocol t = .ok directories) : directories.Nodup := by
  unfold directoriesIn at h
  split at h
  · cases hlist : t.list protocol.transactions with
    | error e => rw [hlist] at h; cases h
    | ok names =>
      simp only [hlist] at h
      obtain rfl := Except.ok.inj h
      obtain ⟨hnodup, hentries⟩ := ht.list hlist
      refine (List.mergeSort_perm _ _).nodup_iff.2 (List.Nodup.map_on ?_ (hnodup.filter _))
      intro a ha b hb heq
      exact Path.join_injective (hentries a (List.mem_filter.1 ha).1) (hentries b (List.mem_filter.1 hb).1) heq
  · obtain rfl := Except.ok.inj h
    exact List.nodup_nil

end Found

end Discovery

end Parley
