/-
Giving a file of a tree a new text. Nothing else changes: every other file keeps its text, every
directory its names and every link its target. So paths lead where they led, and a path is read as
the new text if it leads to that file, and else as before.
-/
import Parley.Files.Tree

namespace Parley

/-- A node without the texts of files and without what lies in directories. -/
def Node.shape : Node → Node
  | .file _ _ => .file (.text "") none
  | .link target => .link target
  | .directory _ _ => .directory [] none

/-- A node without what lies in directories. -/
def Node.surface : Node → Node
  | .directory _ mode => .directory [] mode
  | n => n

theorem Node.shape_surface (n : Node) : n.surface.shape = n.shape := by
  cases n <;> rfl

namespace Tree

/-! ## Nodes of a tree -/

theorem findFrom_cons (entries : List (String × Node)) (mode : Option Nat) (name : String) (names : List String) :
    findFrom (.directory entries mode) (name :: names) = (entries.lookup name).bind (findFrom · names) := rfl

theorem putEntry_self (name : String) (node : Option Node) (old : Node) (entries : List (String × Node)) :
    putEntry name node ((name, old) :: entries) = node.elim entries fun n => (name, n) :: entries := if_pos rfl

theorem putEntry_of_ne {key name : String} (h : key ≠ name) (node : Option Node) (old : Node)
    (entries : List (String × Node)) : putEntry name node ((key, old) :: entries) = (key, old) :: putEntry name node entries :=
  if_neg h

theorem putAt_singleton (node : Option Node) (name : String) (entries : List (String × Node)) :
    putAt node [name] entries = putEntry name node entries := rfl

theorem putAt_cons {node : Option Node} {name : String} {rest : List String} {entries inner : List (String × Node)}
    {mode : Option Nat} (hrest : rest ≠ []) (h : entries.lookup name = some (.directory inner mode)) :
    putAt node (name :: rest) entries = putEntry name (some (.directory (putAt node rest inner) mode)) entries := by
  obtain ⟨next, more, rfl⟩ := List.exists_cons_of_ne_nil hrest
  rw [putAt, h]
  exact List.cons_ne_nil _ _

theorem lookup_putEntry (name : String) (n : Node) (entries : List (String × Node)) (key : String) :
    (putEntry name (some n) entries).lookup key = if key = name then some n else entries.lookup key := by
  induction entries with
  | nil =>
    show [(name, n)].lookup key = _
    rw [List.lookup_cons]
    by_cases h : key = name
    · rw [if_pos h, beq_iff_eq.2 h]
    · rw [if_neg h, beq_false_of_ne h]
  | cons e entries ih =>
    obtain ⟨k, old⟩ := e
    by_cases hk : k = name
    · subst hk
      rw [putEntry_self, Option.elim_some, List.lookup_cons, List.lookup_cons]
      by_cases h : key = k
      · rw [if_pos h, beq_iff_eq.2 h]
      · rw [if_neg h, beq_false_of_ne h]
    · rw [putEntry_of_ne hk, List.lookup_cons, ih, List.lookup_cons]
      by_cases h : key = k
      · subst h
        simp only [beq_self_eq_true, if_neg hk]
      · simp only [beq_false_of_ne h]

theorem findFrom_append (n : Node) (names more : List String) :
    findFrom n (names ++ more) = (findFrom n names).bind (findFrom · more) := by
  induction names generalizing n with
  | nil => rfl
  | cons name names ih =>
    cases n with
    | directory entries mode =>
      rw [List.cons_append, findFrom_cons, findFrom_cons]
      cases entries.lookup name with
      | none => rfl
      | some n => exact ih n
    | _ => rfl

/-- What lies at a name in a directory. -/
theorem find?_step {t : Tree} {here : List String} {entries : List (String × Node)} {mode : Option Nat}
    (h : t.find? here = some (.directory entries mode)) (step : String) : t.find? (here ++ [step]) = entries.lookup step := by
  unfold find? at h ⊢
  rw [findFrom_append, h, Option.bind_some, findFrom_cons]
  cases entries.lookup step <;> rfl

/-- What lies at the end of names once a file has a new text: a directory on the way to the file, in
which the file has it too; or the file; or what lay there. -/
theorem findFrom_putAt {content : Content} {old : Option Nat} (text : String) (new : Option Nat) :
    ∀ {target : List String} {entries : List (String × Node)} {mode : Option Nat},
      findFrom (.directory entries mode) target = some (.file content old) → ∀ names,
        (∃ rest inner mode', findFrom (.directory entries mode) names = some (.directory inner mode') ∧
          findFrom (.directory inner mode') rest = some (.file content old) ∧ names ≠ target ∧
          findFrom (.directory (putAt (some (.file (.text text) new)) target entries) mode) names =
            some (.directory (putAt (some (.file (.text text) new)) rest inner) mode')) ∨
        (names = target ∧ findFrom (.directory (putAt (some (.file (.text text) new)) target entries) mode) names =
          some (.file (.text text) new)) ∨
        (names ≠ target ∧ findFrom (.directory (putAt (some (.file (.text text) new)) target entries) mode) names =
          findFrom (.directory entries mode) names)
  | [], _, _, h, _ => nomatch h
  | _ :: _, entries, mode, h, [] => .inl ⟨_, entries, mode, rfl, h, nofun, rfl⟩
  | [name], entries, mode, h, key :: names => by
    have hlookup : entries.lookup name = some (.file content old) := by
      rw [findFrom_cons] at h
      obtain ⟨n, hn, hfind⟩ := Option.bind_eq_some_iff.1 h
      rw [hn, ← hfind]
      rfl
    refine .inr ?_
    rw [putAt_singleton, findFrom_cons, findFrom_cons, lookup_putEntry]
    by_cases hkey : key = name
    · subst hkey
      rw [if_pos rfl, hlookup]
      cases names with
      | nil => exact .inl ⟨rfl, rfl⟩
      | cons next names => exact .inr ⟨nofun, rfl⟩
    · rw [if_neg hkey]
      exact .inr ⟨fun heq => hkey (List.cons.inj heq).1, rfl⟩
  | name :: next :: rest, entries, mode, h, key :: names => by
    rw [findFrom_cons] at h
    obtain ⟨n, hlookup, hfind⟩ := Option.bind_eq_some_iff.1 h
    cases n with
    | directory inner mode' =>
      rw [putAt_cons (List.cons_ne_nil next rest) hlookup, findFrom_cons, findFrom_cons, lookup_putEntry]
      by_cases hkey : key = name
      · subst hkey
        rw [if_pos rfl, hlookup, Option.bind_some, Option.bind_some]
        simpa using findFrom_putAt text new hfind names
      · rw [if_neg hkey]
        exact .inr (.inr ⟨fun heq => hkey (List.cons.inj heq).1, rfl⟩)
    | file _ _ => cases hfind
    | link _ => cases hfind

/-! ## Surveys -/

theorem surveyNode_file (t : Tree) (path : String) (content : Content) (mode : Option Nat) :
    surveyNode t path (.file content mode) = .file := rfl

theorem surveyNode_directory (t : Tree) (path : String) (entries : List (String × Node)) (mode : Option Nat) :
    surveyNode t path (.directory entries mode) = .directory (surveyEntries t path entries) := rfl

theorem surveyEntries_cons (t : Tree) (path name : String) (n : Node) (entries : List (String × Node)) :
    surveyEntries t path ((name, n) :: entries) =
      (name, surveyNode t (Path.join path name) n) :: surveyEntries t path entries := rfl

theorem surveyEntries_putEntry {t : Tree} {path name : String} {n old : Node} {entries : List (String × Node)}
    (hlookup : entries.lookup name = some old)
    (hsame : surveyNode t (Path.join path name) n = surveyNode t (Path.join path name) old) :
    surveyEntries t path (putEntry name (some n) entries) = surveyEntries t path entries := by
  induction entries with
  | nil => cases hlookup
  | cons e entries ih =>
    obtain ⟨k, m⟩ := e
    by_cases hk : k = name
    · subst hk
      rw [List.lookup_cons_self] at hlookup
      cases hlookup
      rw [putEntry_self, Option.elim_some, surveyEntries_cons, surveyEntries_cons, hsame]
    · rw [List.lookup_cons, beq_false_of_ne (Ne.symm hk)] at hlookup
      rw [putEntry_of_ne hk, surveyEntries_cons, surveyEntries_cons, ih hlookup]

/-- A survey does not tell the text of a file. -/
theorem surveyEntries_putAt (t : Tree) {content : Content} {old : Option Nat} (text : String) (new : Option Nat) :
    ∀ {target : List String} {entries : List (String × Node)} {mode : Option Nat} {path : String},
      findFrom (.directory entries mode) target = some (.file content old) →
        surveyEntries t path (putAt (some (.file (.text text) new)) target entries) = surveyEntries t path entries
  | [], _, _, _, h => nomatch h
  | [name], entries, mode, path, h => by
    rw [findFrom_cons] at h
    obtain ⟨n, hlookup, hfind⟩ := Option.bind_eq_some_iff.1 h
    cases hfind
    exact surveyEntries_putEntry hlookup rfl
  | name :: next :: rest, entries, mode, path, h => by
    rw [findFrom_cons] at h
    obtain ⟨n, hlookup, hfind⟩ := Option.bind_eq_some_iff.1 h
    cases n with
    | directory inner mode' =>
      rw [putAt_cons (List.cons_ne_nil next rest) hlookup]
      refine surveyEntries_putEntry hlookup ?_
      rw [surveyNode_directory, surveyNode_directory, surveyEntries_putAt t text new hfind]
    | file _ _ => cases hfind
    | link _ => cases hfind

/-! ## Rewritten trees -/

/-- A tree in which the file at the end of the names `target` has a new text. -/
structure Rewritten (t t' : Tree) (target : List String) (text : String) : Prop where
  before : ∃ content mode, t.find? target = some (.file content mode)
  after : ∃ mode, t'.find? target = some (.file (.text text) mode)
  other : ∀ names, names ≠ target → (t'.find? names).map Node.surface = (t.find? names).map Node.surface
  survey : ∀ t₀ path names, (t'.find? names).map (surveyNode t₀ path) = (t.find? names).map (surveyNode t₀ path)

theorem rewritten_put {t : Tree} {target : List String} {content : Content} {mode : Option Nat}
    (h : t.find? target = some (.file content mode)) (text : String) :
    Rewritten t (t.put target (some (.file (.text text) mode))) target text := by
  have hfind := findFrom_putAt text mode h
  constructor
  case before => exact ⟨_, _, h⟩
  case after =>
    rcases hfind target with ⟨rest, inner, mode', -, -, hne, -⟩ | ⟨-, hnew⟩ | ⟨hne, -⟩
    · exact absurd rfl hne
    · exact ⟨_, hnew⟩
    · exact absurd rfl hne
  case other =>
    intro names hne
    rcases hfind names with ⟨rest, inner, mode', hold, -, -, hnew⟩ | ⟨heq, -⟩ | ⟨-, hsame⟩
    · unfold find? root put
      rw [hold, hnew]
      rfl
    · exact absurd heq hne
    · exact congrArg _ hsame
  case survey =>
    intro t₀ path names
    rcases hfind names with ⟨rest, inner, mode', hold, hrest, -, hnew⟩ | ⟨heq, hnew⟩ | ⟨-, hsame⟩
    · unfold find? root put
      rw [hold, hnew, Option.map_some, Option.map_some, surveyNode_directory, surveyNode_directory,
        surveyEntries_putAt t₀ text mode hrest]
    · rw [heq, h]
      subst heq
      unfold find? root put
      rw [hnew, Option.map_some, Option.map_some, surveyNode_file, surveyNode_file]
    · exact congrArg _ hsame

/-! ## Paths -/

/-- Trees with the same names, directories and links. -/
def Alike (t t' : Tree) : Prop := ∀ names, (t'.find? names).map Node.shape = (t.find? names).map Node.shape

theorem Alike.symm {t t' : Tree} (h : Alike t t') : Alike t' t := fun names => (h names).symm

theorem Rewritten.alike {t t' : Tree} {target : List String} {text : String} (h : Rewritten t t' target text) : Alike t t' := by
  intro names
  by_cases heq : names = target
  · subst heq
    obtain ⟨content, mode, hbefore⟩ := h.before
    obtain ⟨mode', hafter⟩ := h.after
    rw [hbefore, hafter]
    rfl
  · have := congrArg (Option.map Node.shape) (h.other names heq)
    simpa only [Option.map_map, Function.comp_def, Node.shape_surface] using this

theorem Alike.directory {t t' : Tree} (h : Alike t t') {here : List String} {entries : List (String × Node)} {mode : Option Nat}
    (hfind : t.find? here = some (.directory entries mode)) :
    ∃ entries' mode', t'.find? here = some (.directory entries' mode') ∧
      ∀ step, (entries'.lookup step).map Node.shape = (entries.lookup step).map Node.shape := by
  have hhere := h here
  rw [hfind] at hhere
  obtain ⟨n, hn, hshape⟩ := Option.map_eq_some_iff.1 hhere
  cases n with
  | directory entries' mode' =>
    refine ⟨entries', mode', hn, fun step => ?_⟩
    rw [← find?_step hn, ← find?_step hfind]
    exact h _
  | _ => cases hshape

theorem none_of_shape {a b : Option Node} (h : a.map Node.shape = b.map Node.shape) (hb : b = none) : a = none := by
  rw [hb] at h
  exact Option.map_eq_none_iff.1 h

theorem link_of_shape {a b : Option Node} {target : String} (h : a.map Node.shape = b.map Node.shape)
    (hb : b = some (.link target)) : a = some (.link target) := by
  rw [hb] at h
  obtain ⟨n, rfl, hn⟩ := Option.map_eq_some_iff.1 h
  cases n <;> cases hn
  rfl

/-- Paths lead to the same names in trees that are alike. -/
theorem Alike.walk {t t' : Tree} (h : Alike t t') (follow create : Bool) (links : Nat) (here todo : List String) :
    t'.walk follow create links here todo = t.walk follow create links here todo := by
  fun_induction Tree.walk t follow create links here todo with
  | case1 => rw [Tree.walk]
  | case2 links here rest entries mode hfind ih =>
    obtain ⟨entries', mode', hfind', -⟩ := h.directory hfind
    rw [Tree.walk, hfind']
    exact ih
  | case3 links here rest entries mode hfind hdot ih =>
    obtain ⟨entries', mode', hfind', -⟩ := h.directory hfind
    rw [Tree.walk, hfind']
    exact ih
  | case4 links here step rest entries mode hfind hdot hdots hlookup hcreate =>
    obtain ⟨entries', mode', hfind', hsteps⟩ := h.directory hfind
    rw [Tree.walk, hfind']
    simp only [if_neg hdot, if_neg hdots, none_of_shape (hsteps step) hlookup, if_pos hcreate]
  | case5 links here step rest entries mode hfind hdot hdots hlookup hcreate =>
    obtain ⟨entries', mode', hfind', hsteps⟩ := h.directory hfind
    rw [Tree.walk, hfind']
    simp only [if_neg hdot, if_neg hdots, none_of_shape (hsteps step) hlookup, if_neg hcreate]
  | case6 links here step rest entries mode hfind hdot hdots target hlookup hstay =>
    obtain ⟨entries', mode', hfind', hsteps⟩ := h.directory hfind
    rw [Tree.walk, hfind']
    simp only [if_neg hdot, if_neg hdots, link_of_shape (hsteps step) hlookup, if_pos hstay]
  | case7 here step rest entries mode hfind hdot hdots target hlookup hstay =>
    obtain ⟨entries', mode', hfind', hsteps⟩ := h.directory hfind
    rw [Tree.walk, hfind']
    simp only [if_neg hdot, if_neg hdots, link_of_shape (hsteps step) hlookup, if_neg hstay]
  | case8 here step rest entries mode hfind hdot hdots target hlookup hstay links ih =>
    obtain ⟨entries', mode', hfind', hsteps⟩ := h.directory hfind
    rw [Tree.walk, hfind']
    simp only [if_neg hdot, if_neg hdots, link_of_shape (hsteps step) hlookup, if_neg hstay]
    exact ih
  | case9 links here step rest entries mode hfind hdot hdots n hlink hlookup ih =>
    obtain ⟨entries', mode', hfind', hsteps⟩ := h.directory hfind
    obtain ⟨n', hn', -⟩ := Option.map_eq_some_iff.1 ((hsteps step).trans (congrArg _ hlookup))
    rw [Tree.walk, hfind']
    simp only [if_neg hdot, if_neg hdots, hn']
    cases n' with
    | link target =>
      -- the step leads to a link in one tree only if it does in the other
      have hlookup' := link_of_shape (hsteps step).symm hn'
      rw [hlookup] at hlookup'
      exact absurd (Option.some.inj hlookup') (hlink target)
    | file _ _ => exact ih
    | directory _ _ => exact ih
  | case10 links here step rest hfile =>
    rw [Tree.walk]
    split
    · rename_i hfind
      obtain ⟨entries, mode, hfind, -⟩ := h.symm.directory hfind
      exact absurd hfind (hfile entries mode)
    · rfl

theorem Alike.resolve {t t' : Tree} (h : Alike t t') (path : String) : t'.resolve path = t.resolve path := by
  unfold Tree.resolve resolveWith
  rw [h.walk]

theorem kindOf_shape (n : Node) : kindOf n.shape = kindOf n := by
  cases n <;> rfl

theorem Alike.kindOf {t t' : Tree} (h : Alike t t') (names : List String) :
    (t'.find? names).bind kindOf = (t.find? names).bind kindOf := by
  have hshape := congrArg (Option.bind · Tree.kindOf) (h names)
  simpa only [Option.bind_map, Function.comp_def, kindOf_shape] using hshape

theorem get_eq (t : Tree) (path : String) : (t.get path).toOption = (t.resolve path).toOption.bind t.find? := by
  unfold get
  cases t.resolve path with
  | error e => rfl
  | ok names =>
    simp only [bind, Except.bind]
    cases hfind : t.find? names <;> simp [Except.toOption, hfind]

theorem kind_eq_get (t : Tree) (path : String) : t.kind path = (t.get path).toOption.bind kindOf := rfl

theorem kind_eq (t : Tree) (path : String) :
    t.kind path = (t.resolve path).toOption.bind fun names => (t.find? names).bind Tree.kindOf := by
  rw [kind_eq_get, get_eq, Option.bind_assoc]

theorem kind_of_resolve {t : Tree} {path : String} {names : List String} {n : Node} (hresolve : t.resolve path = .ok names)
    (hfind : t.find? names = some n) : t.kind path = Tree.kindOf n := by
  rw [kind_eq, hresolve, Except.toOption, Option.bind_some, hfind, Option.bind_some]

theorem Alike.kind {t t' : Tree} (h : Alike t t') (path : String) : t'.kind path = t.kind path := by
  rw [kind_eq, kind_eq, h.resolve]
  simp only [h.kindOf]

mutual

theorem Alike.surveyNode {t t' : Tree} (h : Alike t t') : ∀ (path : String) (n : Node),
    t'.surveyNode path n = t.surveyNode path n
  | _, .file _ _ => by rw [Tree.surveyNode, Tree.surveyNode]
  | path, .link _ => by rw [Tree.surveyNode, Tree.surveyNode, h.kind]
  | path, .directory entries _ => by rw [Tree.surveyNode, Tree.surveyNode, h.surveyEntries path entries]

theorem Alike.surveyEntries {t t' : Tree} (h : Alike t t') : ∀ (path : String) (entries : List (String × Node)),
    t'.surveyEntries path entries = t.surveyEntries path entries
  | _, [] => by rw [Tree.surveyEntries, Tree.surveyEntries]
  | path, (name, n) :: rest => by
    rw [Tree.surveyEntries, Tree.surveyEntries, h.surveyNode (Path.join path name) n, h.surveyEntries path rest]

end

theorem survey_eq (t : Tree) (path : String) : t.survey path =
    match t.resolve path with
    | .error e => .error e
    | .ok names =>
      match (t.find? names).map (t.surveyNode path) with
      | some (.directory entries) => .ok entries
      | some _ => .error .notADirectory
      | none => .error .notFound := by
  unfold survey get
  cases t.resolve path with
  | error e => rfl
  | ok names =>
    simp only [bind, Except.bind]
    rcases t.find? names with _ | n
    · rfl
    · cases n <;> rw [Option.map_some, Tree.surveyNode]

/-- Trees in which every path leads to the same kind of thing and every directory holds the same. -/
structure SameNames (t t' : Tree) : Prop where
  kind : ∀ path, t'.kind path = t.kind path
  survey : ∀ path, t'.survey path = t.survey path

theorem SameNames.refl (t : Tree) : SameNames t t := ⟨fun _ => rfl, fun _ => rfl⟩

theorem SameNames.trans {t t' t'' : Tree} (h : SameNames t t') (h' : SameNames t' t'') : SameNames t t'' :=
  ⟨fun path => (h'.kind path).trans (h.kind path), fun path => (h'.survey path).trans (h.survey path)⟩

theorem Rewritten.sameNames {t t' : Tree} {target : List String} {text : String} (h : Rewritten t t' target text) :
    SameNames t t' := by
  refine ⟨h.alike.kind, fun path => ?_⟩
  have hnodes : ∀ names, (t'.find? names).map (t'.surveyNode path) = (t.find? names).map (t.surveyNode path) := by
    intro names
    rw [h.survey, funext (h.alike.surveyNode path)]
  rw [Tree.survey_eq, Tree.survey_eq, h.alike.resolve]
  simp only [hnodes]

/-! ## Reading -/

theorem read_eq {t : Tree} {path : String} {names : List String} (h : t.resolve path = .ok names) :
    t.read path = match t.find? names with
      | some (.file (.text value) _) => .ok value
      | some (.file (.binary _) _) => .error .notText
      | some (.directory ..) => .error .isADirectory
      | some (.link _) | none => .error .notFound := by
  unfold read get
  rw [h]
  simp only [bind, Except.bind]
  rcases t.find? names with _ | (⟨_ | _, _⟩ | _ | _) <;> rfl

/-- What is read depends on the surface of what a path leads to. -/
theorem read_eq_of_surface {t t' : Tree} {path : String} {names : List String} (h : t.resolve path = .ok names)
    (h' : t'.resolve path = .ok names) (hsurface : (t'.find? names).map Node.surface = (t.find? names).map Node.surface) :
    t'.read path = t.read path := by
  have hread : ∀ t : Tree, t.resolve path = .ok names → t.read path = match (t.find? names).map Node.surface with
      | some (.file (.text value) _) => .ok value
      | some (.file (.binary _) _) => .error .notText
      | some (.directory ..) => .error .isADirectory
      | some (.link _) | none => .error .notFound := by
    intro t h
    rw [read_eq h]
    rcases t.find? names with _ | (⟨_ | _, _⟩ | _ | _) <;> rfl
  rw [hread t' h', hread t h, hsurface]

/-- A path that leads to the file is read as the new text. -/
theorem Rewritten.read_target {t t' : Tree} {target : List String} {text path : String} (h : Rewritten t t' target text)
    (hpath : t.resolve path = .ok target) : t'.read path = .ok text := by
  obtain ⟨mode, hafter⟩ := h.after
  rw [← h.alike.resolve] at hpath
  rw [read_eq hpath, hafter]

/-- Any other path is read as before. -/
theorem Rewritten.read_other {t t' : Tree} {target : List String} {text path : String} (h : Rewritten t t' target text)
    (hpath : t.resolve path ≠ .ok target) : t'.read path = t.read path := by
  have hresolve := h.alike.resolve path
  cases hnames : t.resolve path with
  | error e =>
    rw [hnames] at hresolve
    unfold read get
    rw [hnames, hresolve]
    rfl
  | ok names =>
    rw [hnames] at hresolve hpath
    exact read_eq_of_surface hnames hresolve (h.other names fun heq => hpath (by rw [heq]))

/-- A file that is read can be given a new text. -/
theorem replace_of_read {t : Tree} {path source : String} (h : t.read path = .ok source) (text : String) :
    ∃ t' target, t.replace path text = .ok t' ∧ t.resolve path = .ok target ∧ Rewritten t t' target text := by
  cases hnames : t.resolve path with
  | error e =>
    unfold read get at h
    rw [hnames] at h
    cases h
  | ok names =>
    rw [read_eq hnames] at h
    split at h <;> cases h
    rename_i mode hfind
    refine ⟨_, names, ?_, rfl, rewritten_put hfind text⟩
    unfold replace
    simp only [hnames, hfind]

end Tree

end Parley
