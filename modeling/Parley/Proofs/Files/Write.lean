/-
Writing to any path of a tree without links. The path leads to the file afterwards, the file holds the
text, and every other file is as it was: creating directories on the way makes no files, and a text that
cannot be put in its place changes none.
-/
import Parley.Proofs.Files.Discovery
import Parley.Proofs.Files.Grow

namespace Parley

namespace Path

theorem no_slash_of_mem_splitAtSlashes {part cs : List Char} (h : part ∈ splitAtSlashes cs) : '/' ∉ part := by
  induction cs generalizing part with
  | nil =>
    obtain rfl := List.mem_singleton.1 h
    exact List.not_mem_nil
  | cons c cs ih =>
    by_cases hc : c = '/'
    · rw [hc, splitAtSlashes_slash] at h
      rcases List.mem_cons.1 h with rfl | h
      · exact List.not_mem_nil
      · exact ih h
    · obtain ⟨first, more, hparts⟩ := List.exists_cons_of_ne_nil (splitAtSlashes_ne_nil cs)
      rw [splitAtSlashes_char hc hparts] at h
      rw [hparts] at ih
      rcases List.mem_cons.1 h with rfl | h
      · rw [List.mem_cons, not_or]
        exact ⟨Ne.symm hc, ih List.mem_cons_self⟩
      · exact ih (List.mem_cons_of_mem _ h)

end Path

namespace Tree

variable {t t' : Tree}

/-! ## Files -/

/-- The content and the mode of the file at the end of names. -/
def file? (t : Tree) (names : List String) : Option (Content × Option Nat) :=
  match t.find? names with
  | some (.file content mode) => some (content, mode)
  | _ => none

theorem file?_eq_some_iff {names : List String} {content : Content} {mode : Option Nat} :
    t.file? names = some (content, mode) ↔ t.find? names = some (.file content mode) := by
  unfold file?
  rcases t.find? names with _ | _ | _ | _ <;> simp

theorem file?_of_surface {names : List String} (h : (t'.find? names).map Node.surface = (t.find? names).map Node.surface) :
    t'.file? names = t.file? names := by
  have hfile : ∀ t : Tree, t.file? names = match (t.find? names).map Node.surface with
      | some (.file content mode) => some (content, mode)
      | _ => none := by
    intro t
    unfold file?
    rcases t.find? names with _ | _ | _ | _ <;> rfl
  rw [hfile, hfile, h]

theorem Extends.file?_eq {touched : String → Prop} (h : Extends touched t t') {names : List String}
    (huntouched : ∀ name ∈ names.getLast?, ¬ touched name) : t'.file? names = t.file? names := by
  refine Option.ext fun (content, mode) => ?_
  rw [file?_eq_some_iff, file?_eq_some_iff]
  exact ⟨fun hfile => h.files _ _ _ hfile huntouched, fun hfile => h.file hfile huntouched⟩

/-- A file does not lie at the root. -/
theorem exists_above {names : List String} {content : Content} {mode : Option Nat}
    (h : t.find? names = some (.file content mode)) : ∃ above name entries amode, names = above ++ [name] ∧
      t.find? above = some (.directory entries amode) ∧ entries.lookup name = some (.file content mode) := by
  rcases List.eq_nil_or_concat names with rfl | ⟨above, name, rfl⟩
  · cases h
  · rw [List.concat_eq_append] at h ⊢
    have hsplit := h
    rw [find?, findFrom_append] at hsplit
    obtain ⟨n, habove, hname⟩ := Option.bind_eq_some_iff.1 hsplit
    cases n with
    | directory entries amode => exact ⟨above, name, entries, amode, rfl, habove, by rw [← find?_step habove, h]⟩
    | file | link => cases hname

/-! ## Trees without links -/

def LinkFree (t : Tree) : Prop := ∀ names target, t.find? names ≠ some (.link target)

theorem linkFree_of_all (h : t.root.All fun n => ∀ target, n ≠ .link target) : t.LinkFree :=
  fun names target hfind => every_of_all h names _ hfind target rfl

theorem LinkFree.noLink (h : t.LinkFree) (name : String) : NoLink name t := fun _ _ => h _ _

theorem LinkFree.extends {touched : String → Prop} (h : t.LinkFree) (hext : Extends touched t t') : t'.LinkFree :=
  fun _ _ hlink => h _ _ (hext.links _ _ hlink)

/-! ## Giving a file a text -/

/-- A step that is neither `.` nor `..` is a name. -/
theorem isEntry_of_mem_steps {path step : String} (h : step ∈ steps path) (hcurrent : step ≠ ".") (hparent : step ≠ "..") :
    IsEntry step := by
  obtain ⟨part, hpart, rfl⟩ := List.mem_map.1 h
  obtain ⟨hmem, hne⟩ := List.mem_filter.1 hpart
  refine ⟨?_, ?_, hcurrent, hparent⟩
  · rw [String.toList_ofList]
    exact of_decide_eq_true hne
  · rw [String.toList_ofList]
    exact Path.no_slash_of_mem_splitAtSlashes hmem

/-- How a path leads to a name: by following it, or by following all but the name. -/
def LeadsBelow (t : Tree) (path : String) (above : List String) (name : String) : Prop :=
  t.resolve path = .ok (above ++ [name]) ∨
    path ≠ "" ∧ IsEntry name ∧ ∃ todo, allSteps path = todo ++ [name] ∧ t.walk true false maxLinks [] todo = .ok above

/-- A file that is created has the last step of its path as its name. -/
theorem createFile_leadsBelow {path text : String} (h : t.createFile path text = .ok t') :
    ∃ above name, t.LeadsBelow path above name ∧ t' = t.put (above ++ [name]) (some (.file (.text text) none)) := by
  unfold createFile at h
  simp only [bind, Except.bind] at h
  split at h
  · cases h
  split at h
  case h_2 => cases h
  split at h
  · cases h
  rename_i name hname
  split at h
  · cases h
  rename_i hslash
  split at h
  · cases h
  rename_i hdots
  split at h
  · cases h
  rename_i above habove
  obtain ⟨hcurrent, hparent⟩ := not_or.1 hdots
  have hsteps : steps path = (steps path).dropLast ++ [name] := (List.dropLast_append_getLast? name hname).symm
  refine ⟨above, name, .inr ⟨?_, isEntry_of_mem_steps (List.mem_of_getLast? hname) hcurrent hparent, _, ?_, habove⟩,
    (Except.ok.inj h).symm⟩
  · rintro rfl
    cases hname
  · rw [allSteps, if_neg hslash, List.append_nil]
    exact hsteps

/-- A text is put in the place of a file, or where nothing was. -/
theorem put_of_replace {path text : String} (ht : t.LinkFree) (h : t.replace path text = .ok t') :
    ∃ above name entries amode mode, t.LeadsBelow path above name ∧ t.find? above = some (.directory entries amode) ∧
      (∀ n ∈ entries.lookup name, ∃ content mode, n = .file content mode) ∧
      t' = t.put (above ++ [name]) (some (.file (.text text) mode)) := by
  unfold replace at h
  split at h
  · rename_i hresolve
    obtain ⟨above, name, hleads, rfl⟩ := createFile_leadsBelow h
    obtain hplace | ⟨hne, hentry, todo, hsteps, hwalk⟩ := id hleads
    · cases hresolve.symm.trans hplace
    -- the path leads to nothing, so what is above is a directory without the name
    rw [resolve, resolveWith, if_neg hne, hsteps] at hresolve
    obtain ⟨entries, amode, hdir, hnone⟩ := lookup_of_walk_snoc hentry (ht.noLink name) hresolve hwalk
    exact ⟨above, name, entries, amode, none, hleads, hdir, by simp [hnone], rfl⟩
  · cases h
  · rename_i names hresolve
    split at h
    · rename_i content mode hfile
      obtain ⟨above, name, entries, amode, rfl, hdir, hlookup⟩ := exists_above hfile
      refine ⟨above, name, entries, amode, mode, .inl hresolve, hdir, fun n hn => ?_, (Except.ok.inj h).symm⟩
      rw [hlookup] at hn
      exact ⟨content, mode, (Option.some.inj hn).symm⟩
    · cases h

/-- Putting a file changes no other file. -/
theorem file?_put {above names : List String} {name : String} {entries : List (String × Node)} {amode mode : Option Nat}
    {content : Content} (hdir : t.find? above = some (.directory entries amode))
    (hold : ∀ n ∈ entries.lookup name, ∃ content mode, n = .file content mode) (hne : names ≠ above ++ [name]) :
    (t.put (above ++ [name]) (some (.file content mode))).file? names = t.file? names := by
  by_cases hprefix : above ++ [name] <+: names
  · obtain ⟨_ | ⟨next, rest⟩, rfl⟩ := hprefix
    · exact absurd (List.append_nil _) hne
    -- nothing lies below a file
    have hafter : (t.put (above ++ [name]) (some (.file content mode))).find? (above ++ [name] ++ next :: rest) = none := by
      rw [List.append_assoc, List.singleton_append, find?_put_below hdir]
      rfl
    have hbefore : t.find? (above ++ [name] ++ next :: rest) = none := by
      have hplace := find?_step hdir name
      rw [find?] at hplace
      rw [find?, findFrom_append, hplace]
      cases hlookup : entries.lookup name with
      | none => rfl
      | some n =>
        obtain ⟨content, mode, rfl⟩ := hold n hlookup
        rfl
    rw [file?, file?, hafter, hbefore]
  · exact file?_of_surface (find?_put_apart hdir _ hprefix)

/-- A tree in which the path leads to the file at the end of `names`, which holds a text; every other file is as in `t`. -/
structure Written (t t' : Tree) (path : String) (names : List String) (text : String) : Prop where
  place : t'.resolve path = .ok names
  content : ∃ mode, t'.find? names = some (.file (.text text) mode)
  other : ∀ other, other ≠ names → t'.file? other = t.file? other

theorem written_of_replace {path text : String} (ht : t.LinkFree) (h : t.replace path text = .ok t') :
    ∃ names, Written t t' path names text := by
  obtain ⟨above, name, entries, amode, mode, hleads, hdir, hold, rfl⟩ := put_of_replace ht h
  have hext := extends_put hdir (.file (.text text) mode hold)
  have hfile := find?_put_below hdir (.file (.text text) mode) name []
  refine ⟨above ++ [name], ?_, ⟨mode, hfile⟩, fun other hne => file?_put hdir hold hne⟩
  rcases hleads with hresolve | ⟨hne, hentry, todo, hsteps, hwalk⟩
  · exact hext.resolve hresolve
  · obtain ⟨entries', amode', hdir', -⟩ := hext.directory hdir
    rw [find?_step hdir'] at hfile
    rw [resolve, resolveWith, if_neg hne, hsteps, walk_snoc hentry ((ht.extends hext).noLink name), hext.walk hwalk]
    simp [hdir', hfile, findFrom]

/-- A path to which no text can be given leads to no file. -/
theorem file?_of_replace_error {path text : String} {e : FileError} (h : t.replace path text = .error e) {names : List String}
    (hresolve : t.resolve path = .ok names) : t.file? names = none := by
  unfold replace at h
  simp only [hresolve] at h
  split at h
  · cases h
  · rename_i hfile
    rw [file?]
    split
    · rename_i hfind
      exact absurd hfind (hfile _ _)
    · rfl

/-! ## Directories that are there -/

section Below

variable {base name : String} (hname : IsEntry name) (hlink : NoLink name t)

include hname hlink

/-- A path to a directory is followed to what is above and to the name. -/
theorem walk_of_kind {kind : FileKind} (h : t.kind (Path.join base name) = some kind) : ∃ above entries mode n,
    t.walk true false maxLinks [] (steps base) = .ok above ∧ t.find? above = some (.directory entries mode) ∧
      entries.lookup name = some n ∧ kindOf n = some kind ∧ t.resolve (Path.join base name) = .ok (above ++ [name]) := by
  rw [kind_eq] at h
  cases hresolve : t.resolve (Path.join base name) with
  | error e =>
    rw [hresolve] at h
    cases h
  | ok names =>
    rw [hresolve, Except.toOption, Option.bind_some] at h
    rw [resolve_join base hname, walk_snoc_eq_ok_iff hname hlink] at hresolve
    obtain ⟨above, entries, mode, hwalk, hdir, -, rfl⟩ := hresolve
    rw [find?_step hdir] at h
    obtain ⟨n, hn, hkind⟩ := Option.bind_eq_some_iff.1 h
    exact ⟨above, entries, mode, n, hwalk, hdir, hn, hkind, rfl⟩

/-- A directory that is there need not be created. -/
theorem createDirectories_of_kind (h : t.kind (Path.join base name) = some .directory) :
    t.createDirectories (Path.join base name) = .ok t := by
  obtain ⟨above, entries, mode, n, hwalk, hdir, hlookup, hkind, hresolve⟩ := walk_of_kind hname hlink h
  have hmake : t.makeDirectory (steps base ++ [name]) = .error .alreadyExists := by
    unfold makeDirectory
    simp [hwalk, hdir, hlookup, bind, Except.bind]
  have hthere : t.isDirectory (steps base ++ [name]) = true := by
    rw [resolve_join base hname] at hresolve
    unfold isDirectory
    simp [hresolve, find?_step hdir, hlookup, hkind]
  rw [createDirectories, steps_join base hname, List.reverse_append, List.reverse_singleton, List.singleton_append, createAbove,
    List.reverse_cons, List.reverse_reverse, hmake]
  simp only [ensureDirectory, hmake, hthere, if_true]

end Below

/-- A file is created below the directory that a path leads to. -/
theorem createFile_join {base name : String} {here : List String} {entries : List (String × Node)} {mode : Option Nat}
    (hname : IsEntry name) (hne : base ≠ "") (hparent : Path.parent? (Path.join base name) = some base)
    (hdir : t.get base = .ok (.directory entries mode)) (hwalk : t.walk true false maxLinks [] (steps base) = .ok here)
    (text : String) :
    t.createFile (Path.join base name) text = .ok (t.put (here ++ [name]) (some (.file (.text text) none))) := by
  unfold createFile
  -- the working directory would stand in for the empty path
  simp only [hparent, hdir, steps_join _ hname, List.getLast?_concat, List.dropLast_concat, endsInSlash_join _ hname, hwalk,
    hname.ne_current, hname.ne_parent, bind, Except.bind]
  simp only [Bool.false_eq_true, if_false, or_self]

/-- Below a directory that is there, a file can be given a text unless a directory has its name. -/
theorem exists_replace {base above name : String} (habove : IsEntry above) (hname : IsEntry name) (ht : t.LinkFree)
    (hparent : Path.parent? (Path.join (Path.join base above) name) = some (Path.join base above))
    (hdir : t.kind (Path.join base above) = some .directory)
    (hfree : t.kind (Path.join (Path.join base above) name) ≠ some .directory) (text : String) :
    ∃ t', t.replace (Path.join (Path.join base above) name) text = .ok t' := by
  obtain ⟨here, around, _, n, -, hhere, hlookup, hkind, hresolve⟩ := walk_of_kind habove (ht.noLink _) hdir
  rw [← find?_step hhere] at hlookup
  obtain ⟨entries, mode, rfl⟩ : ∃ entries mode, n = .directory entries mode := by
    cases n with
    | directory entries mode => exact ⟨entries, mode, rfl⟩
    | file | link => cases hkind
  have hwalk : t.walk true false maxLinks [] (steps (Path.join base above)) = .ok (here ++ [above]) := by
    rwa [resolve_join base habove, ← steps_join base habove] at hresolve
  have hplace := resolve_join (Path.join base above) hname t
  rw [walk_snoc hname (ht.noLink _), hwalk] at hplace
  simp only [hlookup] at hplace
  unfold replace
  cases hold : entries.lookup name with
  | none =>
    -- the file is created, since what is above is a directory
    rw [hold] at hplace
    have hget : t.get (Path.join base above) = .ok (.directory entries mode) := by
      unfold get
      simp [hresolve, hlookup, bind, Except.bind]
    simp only [hplace, Option.isSome_none, Bool.false_eq_true, if_false]
    exact ⟨_, createFile_join hname (join_ne_empty base habove) hparent hget hwalk text⟩
  | some old =>
    rw [hold] at hplace
    simp only [hplace, Option.isSome_some, if_true, find?_step hlookup, hold]
    cases old with
    | file content mode => exact ⟨_, rfl⟩
    | link target => exact absurd (find?_step hlookup name ▸ hold) (ht _ _)
    | directory inner mode =>
      refine absurd ?_ hfree
      rw [kind_eq, hplace, Option.isSome_some, if_pos rfl, Except.toOption, Option.bind_some, find?_step hlookup, hold]
      rfl

end Tree

end Parley
