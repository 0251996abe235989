/-
What lies at the end of a path. A path is followed to its last step and then by that step; a link at the
end is an entry of its directory like any other, and is followed only if that is asked for. So an entry of
a directory is told from what its path leads to.
-/
import Parley.Proofs.Files.Grow

namespace Parley

/-- The entry of a directory that has a name. -/
def Node.child? (n : Node) (name : String) : Option Node :=
  match n with
  | .directory entries _ => entries.lookup name
  | _ => none

namespace Tree

variable {t : Tree}

/-- What lies at a path; a link at its end is not followed. -/
def node? (t : Tree) (path : String) : Option Node := (t.resolveWith false false path).toOption.bind t.find?

/-- A path that is not empty and ends in no slash. -/
def Straight (path : String) : Prop := path ≠ "" ∧ endsInSlash path = false

theorem straight_join (base : String) {name : String} (hname : IsEntry name) : Straight (Path.join base name) :=
  ⟨join_ne_empty base hname, endsInSlash_join base hname⟩

theorem Straight.resolve {path : String} (h : Straight path) : t.resolve path = t.walk true false maxLinks [] (steps path) := by
  rw [Tree.resolve, resolveWith, if_neg h.1, allSteps, h.2]
  simp

theorem toOption_get_eq_some_iff {path : String} {n : Node} : (t.get path).toOption = some n ↔ t.get path = .ok n := by
  cases t.get path <;> simp [Except.toOption]

theorem kind_eq_directory_iff {path : String} :
    t.kind path = some .directory ↔ ∃ entries mode, t.get path = .ok (.directory entries mode) := by
  rw [kind_eq_get]
  constructor
  · intro h
    obtain ⟨n, hget, hkind⟩ := Option.bind_eq_some_iff.1 h
    cases n with
    | directory entries mode => exact ⟨entries, mode, toOption_get_eq_some_iff.1 hget⟩
    | file | link => cases hkind
  · rintro ⟨entries, mode, hget⟩
    rw [hget]
    rfl

section Below

variable {base name : String} {n : Node} (hbase : Straight base) (hname : IsEntry name)

include hbase hname

/-- A joined path leads nowhere unless the base leads to a directory with that name; then it leads to the entry, or behind
it if that is a link to be followed. -/
theorem walk_entry (t : Tree) (follow : Bool) :
    ((t.get base).toOption.bind (·.child? name) = none ∧
      ∃ e, t.walk follow false maxLinks [] (steps base ++ [name]) = .error e) ∨
    ∃ place n, (t.get base).toOption.bind (·.child? name) = some n ∧ t.find? (place ++ [name]) = some n ∧
      ((follow = false ∨ ∀ target, n ≠ .link target) →
        t.walk follow false maxLinks [] (steps base ++ [name]) = .ok (place ++ [name])) := by
  rw [get_eq, hbase.resolve]
  rcases walk_append (t := t) follow false maxLinks [] (steps base) name [] with ⟨e, hwalk, hjoin⟩ | ⟨place, left, hwalk, hjoin⟩
  · rw [hwalk]
    exact .inl ⟨rfl, e, hjoin⟩
  rw [hwalk, hjoin, Tree.walk, Except.toOption, Option.bind_some]
  cases hfind : t.find? place with
  | none => exact .inl ⟨rfl, _, rfl⟩
  | some m =>
    cases m with
    | file | link => exact .inl ⟨rfl, _, rfl⟩
    | directory entries mode =>
      simp only [if_neg hname.ne_current, if_neg hname.ne_parent, Option.bind_some, Node.child?]
      cases hlookup : entries.lookup name with
      | none => exact .inl ⟨rfl, .notFound, by simp⟩
      | some n =>
        refine .inr ⟨place, n, rfl, (find?_step hfind name).trans hlookup, fun hstay => ?_⟩
        cases n with
        | link target =>
          rcases hstay with rfl | hlink
          · simp
          · exact absurd rfl (hlink target)
        | file | directory => simp [Tree.walk]

/-- At a joined path lies the entry of the directory that the base leads to. -/
theorem node?_join : t.node? (Path.join base name) = (t.get base).toOption.bind (·.child? name) := by
  rw [node?, resolveWith, if_neg (join_ne_empty base hname), allSteps_join base hname]
  rcases walk_entry hbase hname t false with ⟨hnone, e, hwalk⟩ | ⟨place, n, hsome, hfind, hwalk⟩
  · rw [hnone, hwalk]
    rfl
  · rw [hsome, hwalk (.inl rfl), ← hfind]
    rfl

theorem node?_join_eq_some_iff : t.node? (Path.join base name) = some n ↔
    ∃ entries mode, t.get base = .ok (.directory entries mode) ∧ entries.lookup name = some n := by
  rw [node?_join hbase hname]
  constructor
  · intro h
    obtain ⟨m, hget, hentry⟩ := Option.bind_eq_some_iff.1 h
    cases m with
    | directory entries mode => exact ⟨entries, mode, toOption_get_eq_some_iff.1 hget, hentry⟩
    | file | link => cases hentry
  · rintro ⟨entries, mode, hget, hlookup⟩
    rw [hget]
    exact hlookup

/-- Something lies at a joined path only if the base leads to a directory. -/
theorem kind_of_node? (hnode : t.node? (Path.join base name) = some n) : t.kind base = some .directory := by
  obtain ⟨entries, mode, hget, -⟩ := (node?_join_eq_some_iff hbase hname).1 hnode
  exact kind_eq_directory_iff.2 ⟨entries, mode, hget⟩

/-- A joined path leads to what lies there, unless that is a link. -/
theorem get_join (hnode : t.node? (Path.join base name) = some n) (hlink : ∀ target, n ≠ .link target) :
    t.get (Path.join base name) = .ok n := by
  rw [node?_join hbase hname] at hnode
  rcases walk_entry hbase hname t true with ⟨hnone, -⟩ | ⟨place, m, hsome, hfind, hwalk⟩
  · cases hnone.symm.trans hnode
  · obtain rfl := Option.some.inj (hsome.symm.trans hnode)
    unfold get
    rw [resolve_join base hname, hwalk (.inr hlink)]
    simp only [bind, Except.bind, hfind]

end Below

/-- At the path lies a directory, not a link to one. -/
def IsRealDirectory (t : Tree) (path : String) : Prop := ∃ entries mode, t.node? path = some (.directory entries mode)

/-- At the path lies a file, or a link that leads to one. -/
def HasFile (t : Tree) (path : String) : Prop :=
  (∃ content mode, t.node? path = some (.file content mode)) ∨
    (∃ target, t.node? path = some (.link target)) ∧ t.kind path = some .file

section Below

variable {base name : String} (hbase : Straight base) (hname : IsEntry name)

include hbase hname

end Below

end Tree

end Parley
