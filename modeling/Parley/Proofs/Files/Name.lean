/-
The name at the end of a path. A path that was joined from a directory and a name of an entry ends in
that name, both as a list of components and as a list of steps.
-/
import Parley.Files.Tree
import Mathlib.Data.List.Basic

namespace Parley

/-- A name that an entry of a directory can have. -/
structure IsEntry (name : String) : Prop where
  ne_nil : name.toList ≠ []
  no_slash : '/' ∉ name.toList
  ne_current : name ≠ "."
  ne_parent : name ≠ ".."

instance (name : String) : Decidable (IsEntry name) :=
  decidable_of_iff (name.toList ≠ [] ∧ '/' ∉ name.toList ∧ name ≠ "." ∧ name ≠ "..")
    ⟨fun ⟨hnil, hslash, hcurrent, hparent⟩ => ⟨hnil, hslash, hcurrent, hparent⟩,
      fun h => ⟨h.ne_nil, h.no_slash, h.ne_current, h.ne_parent⟩⟩

namespace Path

theorem splitAtSlashes_slash (cs : List Char) : splitAtSlashes ('/' :: cs) = [] :: splitAtSlashes cs := if_pos rfl

theorem splitAtSlashes_char {c : Char} {cs part : List Char} {parts : List (List Char)} (hc : c ≠ '/')
    (hparts : splitAtSlashes cs = part :: parts) : splitAtSlashes (c :: cs) = (c :: part) :: parts :=
  (if_neg hc).trans (by rw [hparts])

theorem splitAtSlashes_of_no_slash {cs : List Char} (h : '/' ∉ cs) : splitAtSlashes cs = [cs] := by
  induction cs with
  | nil => rfl
  | cons c cs ih =>
    obtain ⟨hc, hcs⟩ := not_or.1 (mt List.mem_cons.2 h)
    exact splitAtSlashes_char (Ne.symm hc) (ih hcs)

theorem splitAtSlashes_ne_nil (cs : List Char) : splitAtSlashes cs ≠ [] := by
  induction cs with
  | nil => exact List.cons_ne_nil _ _
  | cons c cs ih =>
    by_cases hc : c = '/'
    · rw [hc, splitAtSlashes_slash]
      exact List.cons_ne_nil _ _
    · obtain ⟨part, parts, hparts⟩ := List.exists_cons_of_ne_nil ih
      rw [splitAtSlashes_char hc hparts]
      exact List.cons_ne_nil _ _

/-- A slash cuts a path in two. -/
theorem splitAtSlashes_append (cs ds : List Char) :
    splitAtSlashes (cs ++ '/' :: ds) = splitAtSlashes cs ++ splitAtSlashes ds := by
  induction cs with
  | nil => exact splitAtSlashes_slash ds
  | cons c cs ih =>
    by_cases hc : c = '/'
    · rw [hc, List.cons_append, splitAtSlashes_slash, splitAtSlashes_slash, ih, List.cons_append]
    · obtain ⟨part, parts, hparts⟩ := List.exists_cons_of_ne_nil (splitAtSlashes_ne_nil cs)
      rw [hparts] at ih
      rw [List.cons_append, splitAtSlashes_char hc ih, splitAtSlashes_char hc hparts]
      rfl

section Join

variable {base name : String}

theorem isAbsolute_of_isEntry (h : IsEntry name) : isAbsolute name = false := by
  obtain ⟨c, cs, hchars⟩ := List.exists_cons_of_ne_nil h.ne_nil
  have hc : c ≠ '/' := fun hc => h.no_slash (by rw [hchars, hc]; exact List.mem_cons_self)
  rw [isAbsolute, hchars]
  simpa using hc

/-- A joined path is the name alone, or the name after a slash, which is the end of the base if that ends in one. -/
theorem toList_join (base : String) (h : IsEntry name) :
    base.toList = [] ∧ (join base name).toList = name.toList ∨
      ∃ cs, (base.toList = cs ∨ base.toList = cs ++ ['/']) ∧ (join base name).toList = cs ++ '/' :: name.toList := by
  rw [join, isAbsolute_of_isEntry h, if_neg Bool.false_ne_true]
  rcases List.eq_nil_or_concat base.toList with hbase | ⟨cs, c, hbase⟩
  · simp [hbase]
  · rw [List.concat_eq_append] at hbase
    rw [hbase, List.getLast?_concat]
    right
    by_cases hc : c = '/'
    · exact ⟨cs, .inr (by rw [hc]), by simp [hc, hbase]⟩
    · exact ⟨cs ++ [c], .inl rfl, by simp [hc, hbase]⟩

theorem splitAtSlashes_join (base : String) (h : IsEntry name) : ∃ parts,
    splitAtSlashes (join base name).toList = parts ++ [name.toList] ∧
      parts.filter (· ≠ []) = (splitAtSlashes base.toList).filter (· ≠ []) := by
  rcases toList_join base h with ⟨hbase, hchars⟩ | ⟨cs, hbase, hchars⟩
  · refine ⟨[], by rw [hchars, splitAtSlashes_of_no_slash h.no_slash]; rfl, ?_⟩
    rw [hbase]
    rfl
  · refine ⟨splitAtSlashes cs, by rw [hchars, splitAtSlashes_append, splitAtSlashes_of_no_slash h.no_slash], ?_⟩
    rcases hbase with hbase | hbase
    · rw [hbase]
    · rw [hbase, splitAtSlashes_append, List.filter_append]
      simp [splitAtSlashes]

theorem component?_of_isEntry (h : IsEntry name) : component? name.toList = some (.name name) := by
  have hne : ∀ text : String, name ≠ text → name.toList ≠ text.toList := fun _ hne heq => hne (String.toList_inj.1 heq)
  have hcurrent : name.toList ≠ ['.'] := hne "." h.ne_current
  have hparent : name.toList ≠ ['.', '.'] := hne ".." h.ne_parent
  rw [component?, if_neg (not_or.2 ⟨h.ne_nil, hcurrent⟩), if_neg hparent, String.ofList_toList]

/-- A joined path has the components of the base, and then the name. -/
theorem components_join (base : String) (hname : IsEntry name) :
    components (join base name) = components base ++ [.name name] := by
  obtain ⟨parts, hparts, hbase⟩ := splitAtSlashes_join base hname
  have hnone : ∀ parts : List (List Char), (parts.filter (· ≠ [])).filterMap component? = parts.filterMap component? := by
    intro parts
    rw [List.filterMap_filter]
    refine List.filterMap_congr fun part _ => ?_
    cases part <;> simp [component?]
  have hrest : parts.filterMap component? = (splitAtSlashes base.toList).filterMap component? := by
    rw [← hnone parts, hbase, hnone]
  -- the path starts as its base does, even if that is empty
  have hstart : isAbsolute (join base name) = isAbsolute base ∧
      ((splitAtSlashes (join base name).toList).head? = some ['.'] ↔ (splitAtSlashes base.toList).head? = some ['.']) := by
    rcases List.eq_nil_or_concat base.toList with hempty | ⟨cs, c, hcs⟩
    · have hjoin : join base name = name := by
        rw [join, isAbsolute_of_isEntry hname, hempty]
        rfl
      have hdot : name.toList ≠ ['.'] := fun h => hname.ne_current (String.toList_inj.1 h)
      rw [hjoin, isAbsolute_of_isEntry hname, splitAtSlashes_of_no_slash hname.no_slash, isAbsolute, hempty]
      simp [splitAtSlashes, hdot]
    · rw [List.concat_eq_append] at hcs
      obtain ⟨front, hfront, hjoin⟩ : ∃ front, (base.toList = front ∨ base.toList = front ++ ['/']) ∧
          (join base name).toList = front ++ '/' :: name.toList := by
        rcases toList_join base hname with ⟨hempty, -⟩ | h
        · simp [hempty] at hcs
        · exact h
      obtain ⟨first, more, hsplit⟩ := List.exists_cons_of_ne_nil (splitAtSlashes_ne_nil front)
      rw [isAbsolute, isAbsolute, hjoin, splitAtSlashes_append, hsplit]
      rcases hfront with hfront | hfront
      · have hne : front ≠ [] := by
          rintro rfl
          simp [hfront] at hcs
        obtain ⟨d, ds, rfl⟩ := List.exists_cons_of_ne_nil hne
        simp [hfront, hsplit]
      · rw [hfront, splitAtSlashes_append, hsplit]
        cases front <;> simp
  rw [hparts] at hstart
  simp only [components, hstart.1, hstart.2, hrest, hparts, List.filterMap_append, List.filterMap_cons,
    component?_of_isEntry hname, List.filterMap_nil, List.append_assoc]

/-- The last component of a joined path is the name. -/
theorem getLast?_components_join (base : String) (h : IsEntry name) :
    (components (join base name)).getLast? = some (.name name) := by
  rw [components_join base h, List.getLast?_concat]

theorem fileName?_join (base : String) (h : IsEntry name) : fileName? (join base name) = some name := by
  rw [fileName?, getLast?_components_join base h]

theorem trimEnd_slash {cs : List Char} (h : cs ≠ []) : trimEnd ('/' :: cs) = trimEnd cs := by
  obtain ⟨c, cs, rfl⟩ := List.exists_cons_of_ne_nil h
  rfl

theorem trimEnd_of_ne {c : Char} (cs : List Char) (hslash : c ≠ '/') (hcurrent : c = '.' → ∃ d ds, cs = d :: ds ∧ d ≠ '/') :
    trimEnd (c :: cs) = c :: cs := by
  by_cases hc : c = '.'
  · obtain ⟨d, ds, rfl, hd⟩ := hcurrent hc
    subst hc
    rw [trimEnd] <;> simp_all
  · rw [trimEnd] <;> simp_all

/-- What is above a joined path is the base, if that ends in a name. -/
theorem parent?_join {c : Char} {cs : List Char} (h : IsEntry name) (hbase : base.toList.reverse = c :: cs) (hslash : c ≠ '/')
    (hcurrent : c ≠ '.') : parent? (join base name) = some base := by
  have hchars : (join base name).toList.reverse = name.toList.reverse ++ '/' :: base.toList.reverse := by
    rcases toList_join base h with ⟨hempty, -⟩ | ⟨ds, hds | hds, hjoin⟩
    · rw [hempty] at hbase
      cases hbase
    · rw [hjoin, hds, List.reverse_append, List.reverse_cons, List.append_assoc, List.singleton_append]
    · rw [hds, List.reverse_append, List.reverse_singleton, List.singleton_append] at hbase
      exact absurd (List.cons.inj hbase).1.symm hslash
  obtain ⟨d, ds, hname⟩ := List.exists_cons_of_ne_nil (List.reverse_ne_nil_iff.2 h.ne_nil)
  have hmem : ∀ e ∈ d :: ds, e ≠ '/' := by
    rintro e he rfl
    exact h.no_slash (List.mem_reverse.1 (hname ▸ he))
  have hd := hmem d List.mem_cons_self
  have htrim : trimEnd (d :: (ds ++ '/' :: base.toList.reverse)) = d :: (ds ++ '/' :: base.toList.reverse) := by
    refine trimEnd_of_ne _ hd fun hdot => ?_
    cases ds with
    | nil =>
      -- the name would be `.`
      refine absurd (String.toList_inj.1 ?_) h.ne_current
      rw [← List.reverse_reverse name.toList, hname, hdot]
      rfl
    | cons e ds => exact ⟨e, _, rfl, hmem e (by simp)⟩
  have hdrop : (d :: (ds ++ '/' :: base.toList.reverse)).dropWhile (· ≠ '/') = '/' :: base.toList.reverse := by
    rw [← List.cons_append, List.dropWhile_append_of_pos (by simpa using hmem)]
    simp
  have hrest : trimEnd ('/' :: c :: cs) = c :: cs :=
    (trimEnd_slash (List.cons_ne_nil c cs)).trans (trimEnd_of_ne cs hslash fun h => absurd h hcurrent)
  rw [parent?, hchars, hname, List.cons_append, htrim]
  split
  · rename_i heq
    cases heq
  · rename_i heq
    exact absurd (List.cons.inj heq).1 hd
  · rw [hdrop, hbase, hrest, ← hbase, List.reverse_reverse, String.ofList_toList]

/-- An ending of the name is an ending of the joined path. -/
theorem join_append {ending : String} (h : IsEntry name) (h' : IsEntry (name ++ ending)) :
    join base (name ++ ending) = join base name ++ ending := by
  rw [join, join, isAbsolute_of_isEntry h, isAbsolute_of_isEntry h', if_neg Bool.false_ne_true, if_neg Bool.false_ne_true]
  split
  · rfl
  · split <;> simp only [String.append_assoc]

theorem join_injective {other : String} (h : IsEntry name) (h' : IsEntry other) (heq : join base name = join base other) :
    name = other := by
  have hname := fileName?_join base h
  rw [heq, fileName?_join base h'] at hname
  exact (Option.some.inj hname).symm

end Join

end Path

namespace Tree

variable {name : String}

/-- The steps of a joined path are those of the base and the name. -/
theorem steps_join (base : String) (h : IsEntry name) : steps (Path.join base name) = steps base ++ [name] := by
  obtain ⟨parts, hparts, hbase⟩ := Path.splitAtSlashes_join base h
  rw [steps, steps, hparts, List.filter_append, List.map_append, hbase]
  simp [h.ne_nil]

theorem endsInSlash_join (base : String) (h : IsEntry name) : endsInSlash (Path.join base name) = false := by
  have hlast : name.toList.getLast? ≠ some '/' := fun hlast => h.no_slash (List.mem_of_getLast? hlast)
  obtain ⟨front, hchars⟩ : ∃ front, (Path.join base name).toList = front ++ name.toList := by
    rcases Path.toList_join base h with ⟨-, hchars⟩ | ⟨cs, -, hchars⟩
    · exact ⟨[], hchars⟩
    · exact ⟨cs ++ ['/'], by rw [hchars, List.append_assoc]; rfl⟩
  rw [endsInSlash, hchars, List.getLast?_append_of_ne_nil _ h.ne_nil]
  simpa using hlast

theorem join_ne_empty (base : String) (h : IsEntry name) : Path.join base name ≠ "" := by
  have hsteps := steps_join base h
  intro hempty
  rw [hempty] at hsteps
  exact List.cons_ne_nil _ _ (List.append_eq_nil_iff.1 hsteps.symm).2

/-- Nothing is asked for behind the name. -/
theorem allSteps_join (base : String) (h : IsEntry name) : allSteps (Path.join base name) = steps base ++ [name] := by
  rw [allSteps, endsInSlash_join base h, steps_join base h]
  simp

end Tree

end Parley
