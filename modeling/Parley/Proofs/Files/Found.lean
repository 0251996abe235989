/-
The transaction files that are found in a tree: those in the directories that are entered from the directory
of transactions through real directories other than that of drawings. Every such file is found, nothing else
is, and no path is found twice.
-/
import Parley.Proofs.Files.Follow
import Parley.Proofs.Files.Order

namespace Parley

namespace Path

/-! ## Paths in order without repetition -/

theorem Component.not_lt_of_lt {a b : Component} (h : a.lt b = true) : ¬ b.lt a = true := fun h' =>
  Bool.eq_false_iff.1 a.lt_irrefl (Component.lt_trans h h')

theorem componentsLe_antisymm {as bs : List Component} (h : componentsLe as bs = true) (h' : componentsLe bs as = true) :
    as = bs := by
  induction as generalizing bs with
  | nil =>
    cases bs with
    | nil => rfl
    | cons b bs => cases h'
  | cons a as ih =>
    cases bs with
    | nil => cases h
    | cons b bs =>
      rw [componentsLe_cons] at h h'
      rcases h with hlt | ⟨rfl, h⟩
      · rcases h' with hlt' | ⟨rfl, -⟩
        · exact absurd hlt' (Component.not_lt_of_lt hlt)
        · exact absurd hlt (Component.not_lt_of_lt hlt)
      · rcases h' with hlt | ⟨-, h'⟩
        · exact absurd hlt (Component.not_lt_of_lt hlt)
        · rw [ih h h']

/-- One path comes before another, and they are not equal as paths. -/
def Before (a b : String) : Prop := le a b = true ∧ ¬ le b a = true

theorem pairwise_before_sort {paths : List String} (h : (paths.map components).Nodup) : (sort paths).Pairwise Before := by
  have hdistinct : ((sort paths).map components).Nodup := ((List.mergeSort_perm paths le).map components).nodup_iff.2 h
  refine ((pairwise_sort paths).and (List.pairwise_map.1 hdistinct)).imp ?_
  rintro a b ⟨hle, hne⟩
  exact ⟨hle, fun hle' => hne (componentsLe_antisymm hle hle')⟩

end Path

namespace Tree

variable {t : Tree}

/-- A directory that a path leads to has entries with different names, each of which is found at its path. -/
theorem Proper.entries (ht : t.Proper) {path : String} {entries : List (String × Node)} {mode : Option Nat}
    (hget : t.get path = .ok (.directory entries mode)) :
    (entries.map Prod.fst).Nodup ∧ (∀ e ∈ entries, IsEntry e.1) ∧
      (Straight path → ∀ e ∈ entries, t.node? (Path.join path e.1) = some e.2) := by
  have hplace := congrArg Except.toOption hget
  rw [get_eq] at hplace
  obtain ⟨names, -, hfind⟩ := Option.bind_eq_some_iff.1 hplace
  obtain ⟨hnodup, hentries⟩ := ht names _ hfind
  refine ⟨hnodup, hentries, fun hpath e he => ?_⟩
  rw [node?_join hpath (hentries e he), hget]
  show entries.lookup e.1 = some e.2
  obtain ⟨front, rest, rfl⟩ := List.append_of_mem he
  rw [List.map_append, List.map_cons, List.nodup_append] at hnodup
  refine List.lookup_eq_some_iff.2 ⟨front, rest, rfl, fun first hfirst => ?_⟩
  exact bne_iff_ne.2 (hnodup.2.2 _ (List.mem_map_of_mem hfirst) _ List.mem_cons_self).symm

end Tree

namespace Discovery

open Parley.Tree

/-- The directories that are entered from a directory: itself, and from each of them the real directories right below it
that do not hold drawings. -/
inductive Entered (t : Tree) (start : String) : String → Prop
  | here : Entered t start start
  | inside {directory name : String} (h : Entered t start directory) (hname : IsEntry name) (hkept : name ≠ drawingsDirectory)
    (hreal : t.IsRealDirectory (Path.join directory name)) : Entered t start (Path.join directory name)

/-- The path of the transaction file in a directory that is entered. -/
def IsSource (t : Tree) (start path : String) : Prop :=
  ∃ directory, Entered t start directory ∧ path = Path.join directory transactionFile ∧ t.HasFile path

theorem isEntry_transactionFile : IsEntry transactionFile := by decide

section Walk

variable {t : Tree} {start path : String}

theorem Entered.straight {directory : String} (h : Entered t start directory) (hstart : Straight start) : Straight directory := by
  cases h with
  | here => exact hstart
  | inside _ hname => exact straight_join _ hname

/-! ## Only transaction files are found -/

mutual

theorem isSource_of_filesAt (ht : t.Proper) (hstart : Straight start) {base name : String} (hbase : Entered t start base)
    (hname : IsEntry name) : ∀ {n : Node}, t.node? (Path.join base name) = some n →
      path ∈ filesAt base name (t.surveyNode (Path.join base name) n) → IsSource t start path
  | .file content mode, hnode, hmem => by
    rw [surveyNode, filesAt] at hmem
    split at hmem
    · obtain rfl := List.mem_singleton.1 hmem
      rename_i heq
      exact ⟨base, hbase, by rw [heq], .inl ⟨content, mode, hnode⟩⟩
    · cases hmem
  | .link target, hnode, hmem => by
    rw [surveyNode, filesAt] at hmem
    split at hmem
    · obtain rfl := List.mem_singleton.1 hmem
      rename_i hlinked
      exact ⟨base, hbase, by rw [hlinked.1], .inr ⟨⟨target, hnode⟩, hlinked.2⟩⟩
    · cases hmem
  | .directory entries mode, hnode, hmem => by
    rw [surveyNode, filesAt] at hmem
    split at hmem
    · cases hmem
    · rename_i hkept
      have hget := get_join (hbase.straight hstart) hname hnode nofun
      obtain ⟨-, hentries, hnodes⟩ := ht.entries hget
      refine isSource_of_filesBelow ht hstart (hbase.inside hname hkept ⟨entries, mode, hnode⟩) (fun e he => ?_) hmem
      exact ⟨hentries e he, hnodes (straight_join base hname) e he⟩

theorem isSource_of_filesBelow (ht : t.Proper) (hstart : Straight start) {base : String} (hbase : Entered t start base) :
    ∀ {entries : List (String × Node)}, (∀ e ∈ entries, IsEntry e.1 ∧ t.node? (Path.join base e.1) = some e.2) →
      path ∈ filesBelow base (t.surveyEntries base entries) → IsSource t start path
  | [], _, hmem => by
    rw [surveyEntries, filesBelow] at hmem
    cases hmem
  | (name, n) :: rest, hentries, hmem => by
    rw [List.forall_mem_cons] at hentries
    rw [surveyEntries, filesBelow] at hmem
    rcases List.mem_append.1 hmem with hmem | hmem
    · exact isSource_of_filesAt ht hstart hbase hentries.1.1 hentries.1.2 hmem
    · exact isSource_of_filesBelow ht hstart hbase hentries.2 hmem

end

/-! ## All transaction files are found -/

theorem mem_filesBelow (t : Tree) {base path : String} {entries : List (String × Node)} :
    path ∈ filesBelow base (t.surveyEntries base entries) ↔
      ∃ e ∈ entries, path ∈ filesAt base e.1 (t.surveyNode (Path.join base e.1) e.2) := by
  induction entries with
  | nil => simp [surveyEntries, filesBelow]
  | cons e entries ih => simp [surveyEntries, filesBelow, ih]

theorem mem_of_lookup {entries : List (String × Node)} {name : String} {n : Node} (h : entries.lookup name = some n) :
    (name, n) ∈ entries := by
  obtain ⟨front, rest, rfl, -⟩ := List.lookup_eq_some_iff.1 h
  simp

/-- What lies at a joined path is an entry of the directory that the base leads to. -/
theorem mem_entries {base name : String} {n : Node} {entries : List (String × Node)} {mode : Option Nat} (hbase : Straight base)
    (hname : IsEntry name) (hget : t.get base = .ok (.directory entries mode)) (hnode : t.node? (Path.join base name) = some n) :
    (name, n) ∈ entries := by
  obtain ⟨_, _, hsame, hlookup⟩ := (node?_join_eq_some_iff hbase hname).1 hnode
  cases hget.symm.trans hsame
  exact mem_of_lookup hlookup

/-- What is found below a directory that is entered is found below the first. -/
theorem Entered.filesBelow_subset {directory : String} (h : Entered t start directory) (hstart : Straight start)
    {entries : List (String × Node)} {mode : Option Nat} (hget : t.get start = .ok (.directory entries mode)) :
    ∃ inner mode, t.get directory = .ok (.directory inner mode) ∧
      filesBelow directory (t.surveyEntries directory inner) ⊆ filesBelow start (t.surveyEntries start entries) := by
  induction h with
  | here => exact ⟨entries, mode, hget, List.Subset.refl _⟩
  | inside h hname hkept hreal ih =>
    rename_i base name
    obtain ⟨around, _, hbase, hsubset⟩ := ih
    obtain ⟨inner, imode, hnode⟩ := hreal
    refine ⟨inner, imode, get_join (h.straight hstart) hname hnode nofun, fun path hmem => hsubset ?_⟩
    refine (mem_filesBelow t).2 ⟨_, mem_entries (h.straight hstart) hname hbase hnode, ?_⟩
    rwa [surveyNode, filesAt, if_neg hkept]

theorem mem_filesBelow_of_isSource (hstart : Straight start) {entries : List (String × Node)} {mode : Option Nat}
    (hget : t.get start = .ok (.directory entries mode)) (h : IsSource t start path) :
    path ∈ filesBelow start (t.surveyEntries start entries) := by
  obtain ⟨directory, hentered, rfl, hfile⟩ := h
  obtain ⟨inner, _, hdirectory, hsubset⟩ := hentered.filesBelow_subset hstart hget
  apply hsubset
  have hentry := isEntry_transactionFile
  have hstraight := hentered.straight hstart
  rcases hfile with ⟨content, mode, hnode⟩ | ⟨⟨target, hnode⟩, hkind⟩
  · refine (mem_filesBelow t).2 ⟨_, mem_entries hstraight hentry hdirectory hnode, ?_⟩
    rw [surveyNode, filesAt, if_pos rfl]
    exact List.mem_singleton_self _
  · refine (mem_filesBelow t).2 ⟨_, mem_entries hstraight hentry hdirectory hnode, ?_⟩
    rw [surveyNode, filesAt, if_pos ⟨rfl, hkind⟩]
    exact List.mem_singleton_self _

/-! ## No file is found twice -/

/-- The path goes on from a directory with a name. -/
def GoesOn (base name path : String) : Prop := ∃ rest, Path.components path = Path.components base ++ .name name :: rest

theorem GoesOn.unique {base name other path : String} (h : GoesOn base name path) (h' : GoesOn base other path) : name = other := by
  obtain ⟨rest, hrest⟩ := h
  obtain ⟨rest', hrest'⟩ := h'
  have hsame := List.append_cancel_left (hrest.symm.trans hrest')
  exact Path.Component.name.inj (List.cons.inj hsame).1

theorem GoesOn.above {base name inner path : String} (hname : IsEntry name) (h : GoesOn (Path.join base name) inner path) :
    GoesOn base name path := by
  obtain ⟨rest, hrest⟩ := h
  rw [Path.components_join base hname, List.append_assoc] at hrest
  exact ⟨_, hrest⟩

/-- Paths that go on from a directory are different as paths. -/
structure Distinct (base : String) (allowed : String → Prop) (paths : List String) : Prop where
  goOn : ∀ path ∈ paths, ∃ name, allowed name ∧ GoesOn base name path
  nodup : (paths.map Path.components).Nodup

theorem Distinct.nil (base : String) (allowed : String → Prop) : Distinct base allowed [] :=
  ⟨fun _ h => absurd h List.not_mem_nil, List.nodup_nil⟩

theorem Distinct.singleton (base : String) {name : String} (hname : IsEntry name) :
    Distinct base (· = name) [Path.join base name] := by
  refine ⟨fun path hpath => ?_, List.nodup_singleton _⟩
  obtain rfl := List.mem_singleton.1 hpath
  exact ⟨name, rfl, [], Path.components_join base hname⟩

theorem Distinct.above {base name : String} {allowed : String → Prop} {paths : List String} (hname : IsEntry name)
    (h : Distinct (Path.join base name) allowed paths) : Distinct base (· = name) paths := by
  refine ⟨fun path hpath => ?_, h.nodup⟩
  obtain ⟨inner, -, hinner⟩ := h.goOn path hpath
  exact ⟨name, rfl, hinner.above hname⟩

theorem Distinct.append {base : String} {allowed allowed' : String → Prop} {paths paths' : List String}
    (h : Distinct base allowed paths) (h' : Distinct base allowed' paths') (hapart : ∀ name, allowed name → ¬ allowed' name) :
    Distinct base (fun name => allowed name ∨ allowed' name) (paths ++ paths') := by
  constructor
  · intro path hpath
    rcases List.mem_append.1 hpath with hpath | hpath
    · obtain ⟨name, hname, hgoes⟩ := h.goOn path hpath
      exact ⟨name, .inl hname, hgoes⟩
    · obtain ⟨name, hname, hgoes⟩ := h'.goOn path hpath
      exact ⟨name, .inr hname, hgoes⟩
  · rw [List.map_append, List.nodup_append]
    refine ⟨h.nodup, h'.nodup, ?_⟩
    intro a ha b hb heq
    obtain ⟨path, hpath, rfl⟩ := List.mem_map.1 ha
    obtain ⟨path', hpath', rfl⟩ := List.mem_map.1 hb
    obtain ⟨name, hname, hgoes⟩ := h.goOn path hpath
    obtain ⟨name', hname', hgoes'⟩ := h'.goOn path' hpath'
    -- equal paths go on with the same name
    have hsame : name = name' := hgoes.unique (by rw [GoesOn, heq]; exact hgoes')
    exact hapart name hname (hsame ▸ hname')

mutual

theorem distinct_filesAt (ht : t.Proper) {base name : String} (hbase : Straight base) (hname : IsEntry name) :
    ∀ {n : Node}, t.node? (Path.join base name) = some n →
      Distinct base (· = name) (filesAt base name (t.surveyNode (Path.join base name) n))
  | .file _ _, _ => by
    rw [surveyNode, filesAt]
    split
    · exact .singleton base hname
    · exact .nil _ _
  | .link _, _ => by
    rw [surveyNode, filesAt]
    split
    · exact .singleton base hname
    · exact .nil _ _
  | .directory entries mode, hnode => by
    rw [surveyNode, filesAt]
    split
    · exact .nil _ _
    · obtain ⟨hnodup, hentries, hnodes⟩ := ht.entries (get_join hbase hname hnode nofun)
      have hstraight := straight_join base hname
      exact (distinct_filesBelow ht hstraight hnodup fun e he => ⟨hentries e he, hnodes hstraight e he⟩).above hname

theorem distinct_filesBelow (ht : t.Proper) {base : String} (hbase : Straight base) :
    ∀ {entries : List (String × Node)}, (entries.map Prod.fst).Nodup →
      (∀ e ∈ entries, IsEntry e.1 ∧ t.node? (Path.join base e.1) = some e.2) →
      Distinct base (· ∈ entries.map Prod.fst) (filesBelow base (t.surveyEntries base entries))
  | [], _, _ => by
    rw [surveyEntries, filesBelow]
    exact .nil _ _
  | (name, n) :: rest, hnodup, hentries => by
    rw [List.forall_mem_cons] at hentries
    rw [List.map_cons, List.nodup_cons] at hnodup
    rw [surveyEntries, filesBelow]
    have hfirst := distinct_filesAt ht hbase hentries.1.1 hentries.1.2
    have hmore := distinct_filesBelow ht hbase hnodup.2 hentries.2
    have hall := hfirst.append hmore fun other heq hmem => hnodup.1 (heq ▸ hmem)
    exact ⟨fun path hpath => by simpa using hall.goOn path hpath, hall.nodup⟩

end

end Walk

/-! ## What is found -/

section Found

variable {t : Tree} (ht : t.Proper) (protocol : Protocol)

theorem straight_transactions (protocol : Protocol) : Straight protocol.transactions :=
  straight_join _ (by decide)

/-- A transaction file lies below a directory only if there is that directory. -/
theorem kind_of_isSource {start path : String} (hstart : Straight start) (h : IsSource t start path) :
    t.kind start = some .directory := by
  obtain ⟨directory, hentered, rfl, hfile⟩ := h
  obtain ⟨n, hnode⟩ : ∃ n, t.node? (Path.join directory transactionFile) = some n := by
    rcases hfile with ⟨content, mode, hnode⟩ | ⟨⟨target, hnode⟩, -⟩ <;> exact ⟨_, hnode⟩
  have hlast := kind_of_node? (hentered.straight hstart) isEntry_transactionFile hnode
  -- the directories above are there since those below are
  clear hfile hnode
  induction hentered with
  | here => exact hlast
  | inside h hname _ hreal ih =>
    obtain ⟨_, _, hnode⟩ := hreal
    exact ih (kind_of_node? (h.straight hstart) hname hnode)

include ht

/-- Transaction files are always found, in order and none twice: just those in the directories that are entered. -/
theorem exists_found : ∃ files, found protocol t = .ok files ∧ files.Pairwise Path.Before ∧
    ∀ path, path ∈ files ↔ IsSource t protocol.transactions path := by
  have hstart := straight_transactions protocol
  unfold found
  by_cases hkind : t.kind protocol.transactions = some .directory
  · obtain ⟨entries, mode, hget⟩ := kind_eq_directory_iff.1 hkind
    obtain ⟨hnodup, hentries, hnodes⟩ := ht.entries hget
    have hproper := fun e he => And.intro (hentries e he) (hnodes hstart e he)
    have hsurvey : t.survey protocol.transactions = .ok (t.surveyEntries protocol.transactions entries) := by
      unfold Tree.survey
      rw [hget]
      rfl
    rw [hkind, hsurvey]
    refine ⟨_, rfl, Path.pairwise_before_sort (distinct_filesBelow ht hstart hnodup hproper).nodup, fun path => ?_⟩
    rw [Path.sort, List.mem_mergeSort]
    exact ⟨isSource_of_filesBelow ht hstart .here hproper, mem_filesBelow_of_isSource hstart hget⟩
  · refine ⟨[], by rw [if_neg (by simpa using hkind)], .nil, fun path => ⟨fun h => absurd h List.not_mem_nil, fun h => ?_⟩⟩
    exact absurd (kind_of_isSource hstart h) hkind

end Found

end Discovery

end Parley
