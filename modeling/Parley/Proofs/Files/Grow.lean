/-
Trees that grow. Creating directories and giving a file a text take nothing away from a tree: what
lay at some names lies there still, and links lead where they led. So a path that led to a file leads
to it in the grown tree, and only the files that are written hold something else.
-/
import Parley.Proofs.Files.Name
import Parley.Proofs.Files.Replace

namespace Parley.Tree

/-! ## Putting an entry into a directory -/

theorem findFrom_putAt_below (n : Node) (name : String) (rest : List String) {inner : List (String × Node)}
    {imode : Option Nat} :
    ∀ {above : List String} {entries : List (String × Node)} {mode : Option Nat},
      findFrom (.directory entries mode) above = some (.directory inner imode) →
        findFrom (.directory (putAt (some n) (above ++ [name]) entries) mode) (above ++ name :: rest) = findFrom n rest
  | [], entries, mode, _ => by
    rw [List.nil_append, putAt_singleton, List.nil_append, findFrom_cons, lookup_putEntry, if_pos rfl]
    rfl
  | a :: above, entries, mode, h => by
    rw [findFrom_cons] at h
    obtain ⟨m, hlookup, hfind⟩ := Option.bind_eq_some_iff.1 h
    cases m with
    | directory entries' mode' =>
      rw [List.cons_append, putAt_cons (by simp) hlookup, List.cons_append, findFrom_cons, lookup_putEntry, if_pos rfl,
        Option.bind_some]
      exact findFrom_putAt_below n name rest hfind
    | file => cases above <;> cases hfind
    | link => cases above <;> cases hfind

theorem findFrom_putAt_apart (n : Node) (name : String) {inner : List (String × Node)} {imode : Option Nat} :
    ∀ {above : List String} {entries : List (String × Node)} {mode : Option Nat},
      findFrom (.directory entries mode) above = some (.directory inner imode) →
        ∀ names, ¬ above ++ [name] <+: names →
          (findFrom (.directory (putAt (some n) (above ++ [name]) entries) mode) names).map Node.surface =
            (findFrom (.directory entries mode) names).map Node.surface
  | _, _, _, _, [], _ => rfl
  | [], entries, mode, _, key :: names, hapart => by
    have hkey : key ≠ name := fun hkey => hapart ⟨names, by rw [hkey]; rfl⟩
    rw [List.nil_append, putAt_singleton, findFrom_cons, findFrom_cons, lookup_putEntry, if_neg hkey]
  | a :: above, entries, mode, h, key :: names, hapart => by
    rw [findFrom_cons] at h
    obtain ⟨m, hlookup, hfind⟩ := Option.bind_eq_some_iff.1 h
    cases m with
    | directory entries' mode' =>
      rw [List.cons_append, putAt_cons (by simp) hlookup, findFrom_cons, findFrom_cons, lookup_putEntry]
      by_cases hkey : key = a
      · subst hkey
        rw [if_pos rfl, hlookup, Option.bind_some, Option.bind_some]
        refine findFrom_putAt_apart n name hfind names fun hprefix => hapart ?_
        exact List.cons_prefix_cons.2 ⟨rfl, hprefix⟩
      · rw [if_neg hkey]
    | file => cases above <;> cases hfind
    | link => cases above <;> cases hfind

section Put

variable {t : Tree} {above : List String} {entries : List (String × Node)} {mode : Option Nat}

theorem find?_put_below (h : t.find? above = some (.directory entries mode)) (n : Node) (name : String) (rest : List String) :
    (t.put (above ++ [name]) (some n)).find? (above ++ name :: rest) = findFrom n rest :=
  findFrom_putAt_below n name rest h

theorem find?_put_apart (h : t.find? above = some (.directory entries mode)) (n : Node) {name : String} {names : List String}
    (hapart : ¬ above ++ [name] <+: names) :
    ((t.put (above ++ [name]) (some n)).find? names).map Node.surface = (t.find? names).map Node.surface :=
  findFrom_putAt_apart n name h names hapart

/-- What is found after something was put in place is a part of that, or was there with the same surface. -/
theorem find?_put_cases (h : t.find? above = some (.directory entries mode)) {n m : Node} {name : String} {names : List String}
    (hfind : (t.put (above ++ [name]) (some n)).find? names = some m) :
    (∃ rest, names = above ++ name :: rest ∧ findFrom n rest = some m) ∨
      ∃ old, t.find? names = some old ∧ old.surface = m.surface := by
  by_cases hprefix : above ++ [name] <+: names
  · obtain ⟨rest, rfl⟩ := hprefix
    rw [List.append_assoc, List.singleton_append] at hfind ⊢
    exact .inl ⟨rest, rfl, (find?_put_below h n name rest).symm.trans hfind⟩
  · have hsurface := find?_put_apart h n hprefix
    rw [hfind, Option.map_some] at hsurface
    exact .inr (Option.map_eq_some_iff.1 hsurface.symm)

end Put

/-! ## Extensions -/

/-- A tree with all that another has. Files may be new or hold something else only if they have a touched name. -/
structure Extends (touched : String → Prop) (t t' : Tree) : Prop where
  kept : ∀ names n, t.find? names = some n → ∃ n', t'.find? names = some n' ∧ n'.shape = n.shape ∧
    ((∀ name ∈ names.getLast?, ¬ touched name) → n'.surface = n.surface)
  links : ∀ names target, t'.find? names = some (.link target) → t.find? names = some (.link target)
  files : ∀ names content mode, t'.find? names = some (.file content mode) → (∀ name ∈ names.getLast?, ¬ touched name) →
    t.find? names = some (.file content mode)

namespace Extends

variable {touched touched' : String → Prop} {t t' t'' : Tree}

theorem refl (touched : String → Prop) (t : Tree) : Extends touched t t :=
  ⟨fun _ n h => ⟨n, h, rfl, fun _ => rfl⟩, fun _ _ h => h, fun _ _ _ h _ => h⟩

theorem mono (h : Extends touched t t') (hmono : ∀ name, touched name → touched' name) : Extends touched' t t' := by
  have huntouched' : ∀ {names : List String}, (∀ name ∈ names.getLast?, ¬ touched' name) →
      ∀ name ∈ names.getLast?, ¬ touched name := fun huntouched name hname htouched => huntouched name hname (hmono name htouched)
  refine ⟨fun names n hn => ?_, h.links, fun names content mode hfile huntouched => h.files _ _ _ hfile (huntouched' huntouched)⟩
  obtain ⟨n', hn', hshape, hsurface⟩ := h.kept names n hn
  exact ⟨n', hn', hshape, fun huntouched => hsurface (huntouched' huntouched)⟩

theorem trans (h : Extends touched t t') (h' : Extends touched t' t'') : Extends touched t t'' := by
  refine ⟨fun names n hn => ?_, fun names target hlink => h.links _ _ (h'.links _ _ hlink),
    fun names content mode hfile huntouched => h.files _ _ _ (h'.files _ _ _ hfile huntouched) huntouched⟩
  obtain ⟨n', hn', hshape, hsurface⟩ := h.kept names n hn
  obtain ⟨n'', hn'', hshape', hsurface'⟩ := h'.kept names n' hn'
  exact ⟨n'', hn'', hshape'.trans hshape, fun huntouched => (hsurface' huntouched).trans (hsurface huntouched)⟩

theorem directory (h : Extends touched t t') {here : List String} {entries : List (String × Node)} {mode : Option Nat}
    (hfind : t.find? here = some (.directory entries mode)) :
    ∃ entries' mode', t'.find? here = some (.directory entries' mode') ∧
      ∀ step n, entries.lookup step = some n → ∃ n', entries'.lookup step = some n' ∧ n'.shape = n.shape := by
  obtain ⟨n, hn, hshape, -⟩ := h.kept here _ hfind
  cases n with
  | directory entries' mode' =>
    refine ⟨entries', mode', hn, fun step m hm => ?_⟩
    rw [← find?_step hfind] at hm
    obtain ⟨n', hn', hshape', -⟩ := h.kept _ m hm
    exact ⟨n', by rw [← find?_step hn, hn'], hshape'⟩
  | _ => cases hshape

/-- A path that leads somewhere leads there in the extended tree. -/
theorem walk (h : Extends touched t t') {links : Nat} {here todo names : List String}
    (hwalk : t.walk true false links here todo = .ok names) : t'.walk true false links here todo = .ok names := by
  fun_induction Tree.walk t true false links here todo with
  | case1 => rw [Tree.walk]; exact hwalk
  | case2 links here rest entries mode hfind ih =>
    obtain ⟨entries', mode', hfind', -⟩ := h.directory hfind
    rw [Tree.walk, hfind']
    exact ih hwalk
  | case3 links here rest entries mode hfind hdot ih =>
    obtain ⟨entries', mode', hfind', -⟩ := h.directory hfind
    rw [Tree.walk, hfind']
    exact ih hwalk
  | case4 links here step rest entries mode hfind hdot hdots hlookup hcreate => cases hcreate.2
  | case5 => cases hwalk
  | case6 links here step rest entries mode hfind hdot hdots target hlookup hstay => cases hstay.2
  | case7 => cases hwalk
  | case8 here step rest entries mode hfind hdot hdots target hlookup hstay links ih =>
    obtain ⟨entries', mode', hfind', hsteps⟩ := h.directory hfind
    obtain ⟨n', hn', hshape⟩ := hsteps step _ hlookup
    have hlink : entries'.lookup step = some (.link target) := by
      cases n' <;> cases hshape
      exact hn'
    rw [Tree.walk, hfind']
    simp only [if_neg hdot, if_neg hdots, hlink, if_neg hstay]
    exact ih hwalk
  | case9 links here step rest entries mode hfind hdot hdots n hlink hlookup ih =>
    obtain ⟨entries', mode', hfind', hsteps⟩ := h.directory hfind
    obtain ⟨n', hn', hshape⟩ := hsteps step _ hlookup
    rw [Tree.walk, hfind']
    simp only [if_neg hdot, if_neg hdots, hn']
    cases n' with
    | link target =>
      cases n with
      | link target' => exact absurd rfl (hlink target')
      | _ => cases hshape
    | file _ _ => exact ih hwalk
    | directory _ _ => exact ih hwalk
  | case10 => cases hwalk

theorem resolve (h : Extends touched t t') {path : String} {names : List String} (hresolve : t.resolve path = .ok names) :
    t'.resolve path = .ok names := by
  unfold Tree.resolve resolveWith at hresolve ⊢
  split at hresolve
  · cases hresolve
  · rw [if_neg ‹_›]
    exact h.walk hresolve

/-- A file without a touched name stays as it is. -/
theorem file (h : Extends touched t t') {names : List String} {content : Content} {mode : Option Nat}
    (hfile : t.find? names = some (.file content mode)) (huntouched : ∀ name ∈ names.getLast?, ¬ touched name) :
    t'.find? names = some (.file content mode) := by
  obtain ⟨n', hn', -, hsurface⟩ := h.kept names _ hfile
  have hsame := hsurface huntouched
  cases n' <;> cases hsame
  exact hn'

end Extends

/-- What is put at the end of names is a file where at most a file was, or a directory where nothing was. -/
inductive Fresh (old : Option Node) : Node → Prop
  | file (content : Content) (mode : Option Nat) (h : ∀ n ∈ old, ∃ content mode, n = .file content mode) :
    Fresh old (.file content mode)
  | directory (mode : Option Nat) (h : old = none) : Fresh old (.directory [] mode)

theorem extends_put {t : Tree} {above : List String} {entries : List (String × Node)} {mode : Option Nat} {name : String}
    {n : Node} (hdir : t.find? above = some (.directory entries mode)) (hfresh : Fresh (entries.lookup name) n) :
    Extends (fun other => other = name ∧ ∃ content mode, n = .file content mode) t (t.put (above ++ [name]) (some n)) := by
  have hplace := find?_step hdir name
  constructor
  case kept =>
    intro names m hm
    by_cases hprefix : above ++ [name] <+: names
    · obtain ⟨rest, rfl⟩ := hprefix
      rw [find?, findFrom_append] at hm
      obtain ⟨old, hold, hrest⟩ := Option.bind_eq_some_iff.1 hm
      change t.find? _ = some old at hold
      rw [hplace] at hold
      cases hfresh with
      | directory mode hnone => rw [hnone] at hold; cases hold
      | file content' mode' hfile =>
        obtain ⟨content, omode, rfl⟩ := hfile old hold
        cases rest with
        | nil =>
          cases hrest
          have hnew := find?_put_below hdir (.file content' mode') name []
          rw [List.append_nil] at *
          exact ⟨.file content' mode', hnew, rfl, fun huntouched => absurd ⟨rfl, _, _, rfl⟩ (huntouched name (by simp))⟩
        | cons next rest => cases hrest
    · have hsurface := find?_put_apart hdir n hprefix
      rw [hm, Option.map_some] at hsurface
      obtain ⟨n', hn', hsame⟩ := Option.map_eq_some_iff.1 hsurface
      exact ⟨n', hn', by rw [← n'.shape_surface, hsame, m.shape_surface], fun _ => hsame⟩
  case links =>
    intro names target hlink
    rcases find?_put_cases hdir hlink with ⟨rest, -, hbelow⟩ | ⟨old, hold, hsame⟩
    · cases hfresh <;> cases rest <;> cases hbelow
    · cases old <;> cases hsame
      exact hold
  case files =>
    intro names content mode hfile huntouched
    rcases find?_put_cases hdir hfile with ⟨rest, rfl, hbelow⟩ | ⟨old, hold, hsame⟩
    · -- only the file itself has a name on which something was put
      cases hfresh with
      | directory => cases rest <;> cases hbelow
      | file =>
        cases rest with
        | nil => exact absurd ⟨rfl, _, _, rfl⟩ (huntouched name (by simp))
        | cons => cases hbelow
    · cases old <;> cases hsame
      exact hold

/-! ## Step by step -/

/-- Steps are followed to the place that the first of them lead to, if they lead anywhere, and from there with the
links that are left. -/
theorem walk_append {t : Tree} (follow create : Bool) (links : Nat) (here todo : List String) (step : String) (rest : List String) :
    (∃ e, t.walk true false links here todo = .error e ∧
      t.walk follow create links here (todo ++ step :: rest) = .error e) ∨
    ∃ place left, t.walk true false links here todo = .ok place ∧
      t.walk follow create links here (todo ++ step :: rest) = t.walk follow create left place (step :: rest) := by
  fun_induction Tree.walk t true false links here todo with
  | case1 links here => exact .inr ⟨here, links, rfl, rfl⟩
  | case2 links here more entries mode hfind ih =>
    rw [List.cons_append, Tree.walk, hfind]
    exact ih
  | case3 links here more entries mode hfind hdot ih =>
    rw [List.cons_append, Tree.walk, hfind]
    exact ih
  | case4 links here next more entries mode hfind hdot hdots hlookup hcreate => cases hcreate.2
  | case5 links here next more entries mode hfind hdot hdots hlookup hcreate =>
    refine .inl ⟨_, rfl, ?_⟩
    rw [List.cons_append, Tree.walk, hfind]
    simp [if_neg hdot, if_neg hdots, hlookup]
  | case6 links here next more entries mode hfind hdot hdots target hlookup hstay => cases hstay.2
  | case7 here next more entries mode hfind hdot hdots target hlookup hstay =>
    refine .inl ⟨_, rfl, ?_⟩
    rw [List.cons_append, Tree.walk, hfind]
    simp [if_neg hdot, if_neg hdots, hlookup]
  | case8 here next more entries mode hfind hdot hdots target hlookup hstay links ih =>
    rw [List.cons_append, Tree.walk, hfind]
    simp only [if_neg hdot, if_neg hdots, hlookup, ← List.append_assoc]
    simpa using ih
  | case9 links here next more entries mode hfind hdot hdots n hnolink hlookup ih =>
    rw [List.cons_append, Tree.walk, hfind]
    simp only [if_neg hdot, if_neg hdots, hlookup]
    cases n with
    | link target => exact absurd rfl (hnolink target)
    | file | directory => exact ih
  | case10 links here next more hfile =>
    refine .inl ⟨_, rfl, ?_⟩
    rw [List.cons_append, Tree.walk]
    split
    · rename_i hfind
      exact absurd hfind (hfile _ _)
    · rfl

section Step

variable {t : Tree} {here : List String} {entries : List (String × Node)} {mode : Option Nat}
  (hhere : t.find? here = some (.directory entries mode)) (create : Bool) (links : Nat) (rest : List String)

include hhere

theorem walk_into (follow : Bool) {name : String} {n : Node} {kind : FileKind} (hname : IsEntry name)
    (hlookup : entries.lookup name = some n) (hkind : kindOf n = some kind) :
    t.walk follow create links here (name :: rest) = t.walk follow create links (here ++ [name]) rest := by
  rw [walk, hhere]
  simp only [if_neg hname.ne_current, if_neg hname.ne_parent, hlookup]
  cases n with
  | link target => cases hkind
  | file | directory => rfl

theorem walk_missing (follow : Bool) {name : String} (hname : IsEntry name) (hlookup : entries.lookup name = none) :
    t.walk follow false links here (name :: rest) = .error .notFound := by
  rw [walk, hhere]
  simp only [if_neg hname.ne_current, if_neg hname.ne_parent, hlookup]
  exact if_neg (by simp)

end Step

/-! ## Names on the way -/

section Find

variable {t : Tree} {n : Node} {kind : FileKind}

/-- Names that lead to no link are followed to their end. -/
theorem walk_along (follow create : Bool) (links : Nat) {here names : List String} (hnames : ∀ name ∈ names, IsEntry name)
    (hfind : t.find? (here ++ names) = some n) (hkind : kindOf n = some kind) (rest : List String) :
    t.walk follow create links here (names ++ rest) = t.walk follow create links (here ++ names) rest := by
  induction names generalizing here with
  | nil => rw [List.append_nil, List.nil_append]
  | cons name names ih =>
    rw [List.forall_mem_cons] at hnames
    have hstep := hfind
    rw [find?, findFrom_append] at hstep
    obtain ⟨m, hhere, hbelow⟩ := Option.bind_eq_some_iff.1 hstep
    cases m with
    | directory entries mode =>
      obtain ⟨inner, hlookup, hinner⟩ := Option.bind_eq_some_iff.1 hbelow
      have hsplit : here ++ name :: names = (here ++ [name]) ++ names := by simp
      have hentry : ∃ kind, kindOf inner = some kind := by
        cases inner with
        | link target =>
          cases names with
          | nil => cases hinner; cases hkind
          | cons => cases hinner
        | file | directory => exact ⟨_, rfl⟩
      rw [List.cons_append, walk_into hhere _ _ _ _ hnames.1 hlookup hentry.choose_spec]
      rw [hsplit] at hfind ⊢
      exact ih hnames.2 hfind
    | file | link => cases hbelow

theorem walk_of_find? (follow create : Bool) (links : Nat) {here names : List String} (hnames : ∀ name ∈ names, IsEntry name)
    (hfind : t.find? (here ++ names) = some n) (hkind : kindOf n = some kind) :
    t.walk follow create links here names = .ok (here ++ names) := by
  have halong := walk_along follow create links hnames hfind hkind []
  rwa [List.append_nil, walk] at halong

variable {path : String} {names : List String} (hne : path ≠ "") (hsteps : allSteps path = names)
  (hnames : ∀ name ∈ names, IsEntry name) (hfind : t.find? names = some n) (hkind : kindOf n = some kind)

include hne hsteps hnames hfind hkind

theorem resolve_of_find? : t.resolve path = .ok names := by
  rw [resolve, resolveWith, if_neg hne, hsteps]
  exact walk_of_find? true false maxLinks hnames hfind hkind

theorem kind_of_find? : t.kind path = some kind := by
  rw [kind_of_resolve (resolve_of_find? hne hsteps hnames hfind hkind) hfind, hkind]

theorem get_of_find? : t.get path = .ok n := by
  unfold Tree.get
  rw [resolve_of_find? hne hsteps hnames hfind hkind]
  simp [bind, Except.bind, hfind]

end Find

theorem read_of_find? {t : Tree} {path text : String} {names : List String} {mode : Option Nat} (hne : path ≠ "")
    (hsteps : allSteps path = names) (hnames : ∀ name ∈ names, IsEntry name)
    (hfind : t.find? names = some (.file (.text text) mode)) : t.read path = .ok text := by
  rw [read_eq (resolve_of_find? hne hsteps hnames hfind rfl), hfind]

/-! ## The last step -/

/-- No link has the name. -/
def NoLink (name : String) (t : Tree) : Prop := ∀ above target, t.find? (above ++ [name]) ≠ some (.link target)

theorem NoLink.extends {touched : String → Prop} {t t' : Tree} {name : String} (h : NoLink name t)
    (hext : Extends touched t t') : NoLink name t' := fun above target hlink => h above target (hext.links _ _ hlink)

/-- A path whose last step is a name that no link has leads to what has the name. -/
theorem walk_snoc {t : Tree} {name : String} (hname : IsEntry name) (hlink : NoLink name t) (links : Nat)
    (here todo : List String) : t.walk true false links here (todo ++ [name]) =
      match t.walk true false links here todo with
      | .error e => .error e
      | .ok above =>
        match t.find? above with
        | some (.directory entries _) => if (entries.lookup name).isSome then .ok (above ++ [name]) else .error .notFound
        | _ => .error .notADirectory := by
  rcases walk_append true false links here todo name [] with ⟨e, hwalk, hjoin⟩ | ⟨place, left, hwalk, hjoin⟩
  · rw [hjoin, hwalk]
  rw [hjoin, hwalk]
  cases hfind : t.find? place with
  | none => simp only [Tree.walk, hfind]
  | some n =>
    cases n with
    | directory entries mode =>
      cases hlookup : entries.lookup name with
      | none =>
        rw [walk_missing hfind _ _ _ hname hlookup]
        simp [hfind, hlookup]
      | some n =>
        cases n with
        | link target => exact absurd ((find?_step hfind name).trans hlookup) (hlink place target)
        | file | directory =>
          rw [walk_into hfind _ _ _ _ hname hlookup rfl, Tree.walk]
          simp [hfind, hlookup]
    | file | link => simp only [Tree.walk, hfind]

section Snoc

variable {t : Tree} {name : String} (hname : IsEntry name) (hlink : NoLink name t) {links : Nat} {here todo above names : List String}

include hname hlink

/-- Such a path leads to something just if it leads to an entry of a directory. -/
theorem walk_snoc_eq_ok_iff : t.walk true false links here (todo ++ [name]) = .ok names ↔
    ∃ above entries mode, t.walk true false links here todo = .ok above ∧ t.find? above = some (.directory entries mode) ∧
      (entries.lookup name).isSome ∧ names = above ++ [name] := by
  rw [walk_snoc hname hlink]
  constructor
  · intro h
    split at h
    · cases h
    · rename_i above hwalk
      split at h
      · rename_i entries mode hdir
        split at h
        · exact ⟨above, entries, mode, hwalk, hdir, ‹_›, (Except.ok.inj h).symm⟩
        · cases h
      · cases h
  · rintro ⟨above, entries, mode, hwalk, hdir, hsome, rfl⟩
    simp only [hwalk, hdir, hsome, if_true]

/-- If it leads to nothing where the path before the name leads somewhere, this is a directory without the name. -/
theorem lookup_of_walk_snoc (h : t.walk true false links here (todo ++ [name]) = .error .notFound)
    (hwalk : t.walk true false links here todo = .ok above) :
    ∃ entries mode, t.find? above = some (.directory entries mode) ∧ entries.lookup name = none := by
  rw [walk_snoc hname hlink, hwalk] at h
  dsimp only at h
  split at h
  · rename_i entries mode hdir
    split at h
    · cases h
    · exact ⟨entries, mode, hdir, Option.not_isSome_iff_eq_none.1 ‹_›⟩
  · cases h

end Snoc

/-! ## Creating directories -/

theorem extends_makeDirectory {t t' : Tree} {todo : List String} (h : t.makeDirectory todo = .ok t') :
    Extends (fun _ => False) t t' := by
  unfold makeDirectory at h
  split at h
  · cases h
  · rename_i name _
    cases hwalk : t.walk true false maxLinks [] todo.dropLast with
    | error e => rw [hwalk] at h; cases h
    | ok above =>
      simp only [hwalk, bind, Except.bind] at h
      split at h
      · rename_i entries mode hdir
        split at h
        · cases h
        · rename_i hnew
          simp only [not_or, Option.not_isSome_iff_eq_none] at hnew
          obtain ⟨-, -, hnone⟩ := hnew
          obtain rfl := Except.ok.inj h
          refine (extends_put hdir (.directory none hnone)).mono fun other htouched => ?_
          obtain ⟨-, content, mode, hfile⟩ := htouched
          cases hfile
      · cases h

theorem extends_ensureDirectory {t t' : Tree} {todo : List String} (h : t.ensureDirectory todo = .ok t') :
    Extends (fun _ => False) t t' := by
  unfold ensureDirectory at h
  split at h
  · rename_i hmake
    obtain rfl := Except.ok.inj h
    exact extends_makeDirectory hmake
  · split at h
    · obtain rfl := Except.ok.inj h
      exact .refl _ t
    · cases h

theorem extends_createAbove {t : Tree} {todo : List String} : ∀ {t' : Tree}, t.createAbove todo = .ok t' →
    Extends (fun _ => False) t t' := by
  induction todo with
  | nil =>
    intro t' h
    obtain rfl := Except.ok.inj h
    exact .refl _ t
  | cons last above ih =>
    intro t' h
    unfold createAbove at h
    split at h
    · cases habove : t.createAbove above with
      | error e => rw [habove] at h; cases h
      | ok u =>
        simp only [habove, bind, Except.bind] at h
        exact (ih habove).trans (extends_ensureDirectory h)
    · exact extends_ensureDirectory h

theorem extends_createDirectories {t t' : Tree} {path : String} (h : t.createDirectories path = .ok t') :
    Extends (fun _ => False) t t' :=
  extends_createAbove h

/-! ## Writing files -/

section Write

variable {t t' : Tree} {base name text : String}

/-- The path leads to a file with the name that holds the text. -/
def LeadsTo (t : Tree) (path name text : String) : Prop :=
  ∃ above mode, t.resolve path = .ok (above ++ [name]) ∧ t.find? (above ++ [name]) = some (.file (.text text) mode)

theorem LeadsTo.read {path : String} (h : t.LeadsTo path name text) : t.read path = .ok text := by
  obtain ⟨above, mode, hresolve, hfind⟩ := h
  rw [read_eq hresolve, hfind]

theorem LeadsTo.extends {touched : String → Prop} {path : String} (h : t.LeadsTo path name text) (hext : Extends touched t t')
    (huntouched : ¬ touched name) : t'.LeadsTo path name text := by
  obtain ⟨above, mode, hresolve, hfind⟩ := h
  refine ⟨above, mode, hext.resolve hresolve, hext.file hfind fun other hother => ?_⟩
  rw [List.getLast?_concat, Option.mem_some_iff] at hother
  rwa [← hother]

theorem resolve_join (base : String) (hname : IsEntry name) (t : Tree) :
    t.resolve (Path.join base name) = t.walk true false maxLinks [] (steps base ++ [name]) := by
  rw [resolve, resolveWith, if_neg (join_ne_empty base hname), allSteps_join base hname]

theorem leadsTo_put {above : List String} {entries : List (String × Node)} {mode : Option Nat} (hname : IsEntry name)
    (hlink : NoLink name t) (hwalk : t.walk true false maxLinks [] (steps base) = .ok above)
    (hdir : t.find? above = some (.directory entries mode))
    (hold : ∀ n ∈ entries.lookup name, ∃ content mode, n = .file content mode) (new : Option Nat) :
    Extends (· = name) t (t.put (above ++ [name]) (some (.file (.text text) new))) ∧
      (t.put (above ++ [name]) (some (.file (.text text) new))).LeadsTo (Path.join base name) name text := by
  have hext := extends_put hdir (.file (.text text) new hold)
  have hfile := find?_put_below hdir (.file (.text text) new) name []
  refine ⟨hext.mono fun _ h => h.1, above, new, ?_, hfile⟩
  obtain ⟨entries', mode', hdir', -⟩ := hext.directory hdir
  rw [find?_step hdir'] at hfile
  rw [resolve_join base hname, walk_snoc hname (hlink.extends hext), hext.walk hwalk]
  simp [hdir', hfile, findFrom]

theorem createFile_ok (hname : IsEntry name) (h : t.createFile (Path.join base name) text = .ok t') :
    ∃ above, t.walk true false maxLinks [] (steps base) = .ok above ∧
      t' = t.put (above ++ [name]) (some (.file (.text text) none)) := by
  unfold createFile at h
  simp only [steps_join base hname, List.getLast?_concat, List.dropLast_concat, endsInSlash_join base hname,
    Bool.false_eq_true, if_false, hname.ne_current, hname.ne_parent, or_self, bind, Except.bind] at h
  split at h
  · cases h
  · split at h
    · split at h
      · cases h
      · exact ⟨_, ‹_›, (Except.ok.inj h).symm⟩
    · cases h

/-- A text that is written to a file is found there, unless a link stands in its place. -/
theorem leadsTo_replace (hname : IsEntry name) (hlink : NoLink name t) (h : t.replace (Path.join base name) text = .ok t') :
    Extends (· = name) t t' ∧ t'.LeadsTo (Path.join base name) name text := by
  unfold replace at h
  split at h
  · rename_i hresolve
    rw [resolve_join base hname] at hresolve
    obtain ⟨above, hwalk, rfl⟩ := createFile_ok hname h
    obtain ⟨entries, mode, hdir, hnone⟩ := lookup_of_walk_snoc hname hlink hresolve hwalk
    exact leadsTo_put hname hlink hwalk hdir (by simp [hnone]) none
  · cases h
  · rename_i names hresolve
    rw [resolve_join base hname, walk_snoc_eq_ok_iff hname hlink] at hresolve
    obtain ⟨above, entries, mode, hwalk, hdir, -, rfl⟩ := hresolve
    rw [find?_step hdir] at h
    split at h
    · rename_i content old hold
      obtain rfl := Except.ok.inj h
      exact leadsTo_put hname hlink hwalk hdir (by simp [hold]) old
    · cases h

end Write

end Parley.Tree
