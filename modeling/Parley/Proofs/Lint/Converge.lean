/-
Automatic fixes converge in one pass. With its fixes put in, a source has no fix left: the references
that stay unresolved are those that had none, and each sees the same names as before, so it has the
same suggestion. Files are checked one after the other, and what is fixed stays so; hence checking
them again changes none of them.
-/
import Parley.Proofs.Command.Lint
import Parley.Proofs.Lint.Account

namespace Parley

/-! ## References -/

/-- The name that a reference is suggested. -/
def Transaction.suggestionFor? (tx : Transaction) (x : Category × Reference) : Option Suggestion :=
  Suggestion.among x.2.name (tx.symbols.namespaceOf x.1).names

/-- What becomes of a reference of a transaction. -/
structure Settles (y y' : Transaction × Category × Reference) : Prop where
  category : y'.2.1 = y.2.1
  name : y'.2.2.name = ((y.1.fixFor? y.2).map (·.text)).getD y.2.2.name
  /-- Unresolved is what was, unless it had a fix. -/
  unresolved : y'.1.symbols.resolves y'.2.1 y'.2.2.name = false ↔
    y.1.symbols.resolves y.2.1 y.2.2.name = false ∧ y.1.fixFor? y.2 = none
  suggestion : y.1.fixFor? y.2 = none → y'.1.suggestionFor? y'.2 = y.1.suggestionFor? y.2

theorem Schema.references_bare (s : Schema) : s.bare.references = s.references.map fun y => (y.1.bare, y.2.1, y.2.2.bare) := by
  simp only [references, bare, List.flatMap_map, List.map_flatMap, Transaction.references_bare, List.map_map, Function.comp_def]

theorem Schema.references_renamed (ρ : Renaming) (s : Schema) :
    (s.renamed ρ).references = s.references.map fun y => (y.1.renamed ρ, y.2.1, y.2.2.renamed ρ) := by
  simp only [references, renamed, List.flatMap_map, List.map_flatMap, Transaction.references_renamed, List.map_map,
    Function.comp_def]

/-- References with the same structure, the one after its fix was put in. -/
theorem settles_of_bare_eq {ρ : Renaming} {y y' : Transaction × Category × Reference} (hfixes : ρ.Fixes y.1)
    (hy : y.2 ∈ y.1.references)
    (hbare : (y'.1.bare, y'.2.1, y'.2.2.bare) = ((y.1.renamed ρ).bare, y.2.1, (y.2.2.renamed ρ).bare)) : Settles y y' := by
  obtain ⟨tx', category', ref'⟩ := y'
  obtain ⟨htx, hrest⟩ := Prod.mk.inj hbare
  obtain ⟨rfl, href⟩ := Prod.mk.inj hrest
  have hname : ref'.bare.name = (y.2.2.renamed ρ).bare.name := congrArg Reference.name href
  rw [Reference.bare, Reference.bare] at hname
  have hsymbols : tx'.symbols.bare = y.1.symbols.bare := by
    rw [← Transaction.symbols_bare, htx, Transaction.symbols_bare, Transaction.symbols_renamed]
  have hresolves : ∀ name, tx'.symbols.resolves y.2.1 name = y.1.symbols.resolves y.2.1 name := by
    intro name
    rw [← Symbols.resolves_bare, hsymbols, Symbols.resolves_bare]
  have hnames : (tx'.symbols.namespaceOf y.2.1).names = (y.1.symbols.namespaceOf y.2.1).names := by
    rw [← Namespace.names_bare, ← Symbols.namespaceOf_bare, hsymbols, Symbols.namespaceOf_bare, Namespace.names_bare]
  have hresolved := Transaction.resolves_renamed hfixes hy
  refine ⟨rfl, ?_, ?_, fun hunfixed => ?_⟩
  · exact hname.trans (Transaction.name_renamed hfixes hy)
  · dsimp only
    rw [hresolves, hname, ← Bool.not_eq_true, ← Bool.not_eq_true, hresolved]
    simp
  · unfold Transaction.suggestionFor?
    dsimp only
    rw [hnames, hname, Transaction.renamed_of_unfixed hfixes hy hunfixed]

/-! ## Sources -/

def Diagnostic.isUnresolved (d : Diagnostic) : Bool :=
  match d.finding with
  | .violation (.unresolved ..) => true
  | _ => false

@[simp] theorem Diagnostic.isUnresolved_bare (d : Diagnostic) : d.bare.isUnresolved = d.isUnresolved := by
  obtain ⟨finding, span, suggestion, fix⟩ := d
  cases finding with
  | violation v => cases v <;> rfl
  | _ => rfl

theorem Diagnostic.isError_of_isUnresolved {d : Diagnostic} (h : d.isUnresolved = true) : d.isError = true := by
  unfold isUnresolved at h
  unfold isError
  split at h
  · rename_i hfinding
    rw [hfinding]
    rfl
  · cases h

/-- A source with its fixes put in has none. -/
theorem fixesOf_autofixed (source : String) : fixesOf (lint (autofixed source)) = [] := by
  by_cases hne : fixesOf (lint source) = []
  · rw [(autofixed_of_no_fixes hne).2, hne]
  · obtain ⟨s, hparse, -⟩ := lint_of_fixes hne
    obtain ⟨s', hparse', hbare, hfixes⟩ := exists_repaired hparse
    generalize renamingOf (fixesOf (lint source)) = ρ at hbare hfixes
    have hnone : fixesOf (s.renamed ρ).diagnostics = [] := by
      refine ((s.renamed ρ).fixes_perm.trans (.of_eq ?_)).eq_nil
      rw [Schema.references_renamed, List.filterMap_map, List.filterMap_eq_nil_iff]
      rintro ⟨tx, x⟩ hy
      obtain ⟨tx, htx, hx⟩ := List.mem_flatMap.1 hy
      obtain ⟨x, hx, heq⟩ := List.mem_map.1 hx
      cases heq
      exact Transaction.fixFor?_renamed (hfixes tx htx) hx
    have hperm := (Schema.diagnostics_of_bare_eq hbare).filterMap (·.fix)
    have hmap : ∀ ds : List Diagnostic, (ds.map Diagnostic.bare).filterMap (·.fix) = (fixesOf ds).map Edit.bare := by
      intro ds
      rw [fixesOf, List.filterMap_map, List.map_filterMap]
      rfl
    rw [hmap, hmap, hnone] at hperm
    rw [lint_of_parse hparse']
    exact List.map_eq_nil_iff.1 hperm.eq_nil

theorem Transaction.isUnresolved_misfits {tx : Transaction} : ∀ d ∈ tx.misfits, d.isUnresolved = false := by
  intro d hd
  obtain ⟨issue, hissue, rfl⟩ := List.mem_map.1 hd
  obtain ⟨s, -, hs⟩ := List.mem_filterMap.1 hissue
  unfold misfit? at hs
  split at hs
  · obtain ⟨e, -, hs⟩ := Option.bind_eq_some_iff.1 hs
    obtain ⟨f, -, hs⟩ := Option.bind_eq_some_iff.1 hs
    split at hs <;> cases hs
    rw [Diagnostic.isUnresolved, Diagnostic.finding_ofIssue]
  · cases hs

theorem isUnresolved_misfitsOf {source : String} : ∀ d ∈ misfitsOf source, d.isUnresolved = false := by
  intro d hd
  unfold misfitsOf at hd
  split at hd
  · obtain ⟨tx, -, hd⟩ := List.mem_flatMap.1 hd
    exact tx.isUnresolved_misfits d hd
  · cases hd

/-- The references that stay unresolved are those that had no fix. -/
theorem unresolved_autofixed (source : String) :
    (((lint (autofixed source)).filter (·.isUnresolved)).map Diagnostic.bare).Perm
      (((lint source).filter fun d => d.isUnresolved && d.fix.isNone).map Diagnostic.bare) := by
  have hfix : ∀ d : Diagnostic, d.bare.fix.isNone = d.fix.isNone := fun d => by simp [Diagnostic.bare]
  have hnew : ((misfitsOf source).map Diagnostic.bare).filter (·.isUnresolved) = [] := by
    refine List.filter_eq_nil_iff.2 fun d hd => ?_
    obtain ⟨d, hd', rfl⟩ := List.mem_map.1 hd
    rw [Diagnostic.isUnresolved_bare, isUnresolved_misfitsOf d hd']
    exact Bool.false_ne_true
  -- an unresolved reference is an error, so the account of errors has them all
  have herrors := (accounts_autofixed source).errors.filter (·.isUnresolved)
  rw [List.filter_append, hnew, List.append_nil] at herrors
  simp only [List.filter_filter, List.filter_map, Function.comp_def, Diagnostic.isUnresolved_bare, Diagnostic.isError_bare,
    hfix] at herrors
  have hafter : ∀ d : Diagnostic, (d.isUnresolved && d.isError) = d.isUnresolved := by
    intro d
    cases h : d.isUnresolved with
    | false => rfl
    | true => rw [Diagnostic.isError_of_isUnresolved h]; rfl
  have hbefore : ∀ d : Diagnostic, (d.isUnresolved && (d.isError && d.fix.isNone)) = (d.isUnresolved && d.fix.isNone) := by
    intro d
    rw [← Bool.and_assoc, hafter]
  simpa only [hafter, hbefore] using herrors

/-! ## Files -/

/-- A path that leads to no file with fixes. -/
def Tree.Clean (t : Tree) (path : String) : Prop := ∀ source, t.read path = .ok source → fixesOf (lint source) = []

/-- Checks of a list of files one after the other, on a tree. -/
def Tree.lintAll (t : Tree) (paths : List String) : List FileReport × Tree :=
  (paths.mapM (lintFile · true) : StateM Tree (List FileReport)) t

theorem Tree.lintAll_cons (t : Tree) (path : String) (paths : List String) :
    t.lintAll (path :: paths) =
      let (r, t') := (lintFile path true : StateM Tree FileReport) t
      let (rs, t'') := t'.lintAll paths
      (r :: rs, t'') := by
  unfold lintAll
  rw [List.mapM_cons]
  rfl

/-- What checking a file of a tree reports and leaves. -/
theorem Tree.lintFile_eq (t : Tree) (path : String) : (lintFile path true : StateM Tree FileReport) t =
    match t.read path with
    | .error e => (⟨path, [.ofFile (.unreadable e)], 0, 0⟩, t)
    | .ok source =>
      if (fixesOf (lint source)).isEmpty then (⟨path, lint source, (fixesOf (lint source)).length, 0⟩, t)
      else match t.replace path (autofixed source) with
        | .error e => (⟨path, lint source ++ [.ofFile (.unwritable e)], (fixesOf (lint source)).length, 0⟩, t)
        | .ok t' => (⟨path, lint (autofixed source), (fixesOf (lint source)).length, (fixesOf (lint source)).length⟩, t') := by
  unfold lintFile
  simp only [bind, StateT.bind, FileAccess.read, pure]
  cases t.read path with
  | error e => rfl
  | ok source =>
    simp only [applyAll_autofixed, Bool.not_true, Bool.false_or]
    split
    · rfl
    · have hreplace : (FileAccess.replace path (autofixed source) : StateM Tree (Except FileError Unit)) t =
          change (·.replace path (autofixed source)) t := rfl
      unfold change at hreplace
      simp only [StateT.bind, hreplace]
      cases t.replace path (autofixed source) <;> rfl

/-- Checking a clean path changes nothing and reports no fix. -/
theorem Tree.Clean.lintFile {t : Tree} {path : String} (h : t.Clean path) :
    ∃ r, (Parley.lintFile path true : StateM Tree FileReport) t = (r, t) ∧ r.fixable = 0 ∧ r.fixed = 0 := by
  rw [lintFile_eq]
  cases hread : t.read path with
  | error e => exact ⟨_, rfl, rfl, rfl⟩
  | ok source =>
    simp only [h source hread]
    exact ⟨_, rfl, rfl, rfl⟩

/-- Checking a path leaves the tree as it is, and then the path is clean, or it puts fixes in the
file that the path leads to. -/
theorem Tree.lintFile_tree {t t' : Tree} {path : String} {r : FileReport}
    (h : (lintFile path true : StateM Tree FileReport) t = (r, t')) :
    (t' = t ∧ t.Clean path) ∨
      ∃ source target, t.resolve path = .ok target ∧ Rewritten t t' target (autofixed source) := by
  rw [lintFile_eq] at h
  cases hread : t.read path with
  | error e =>
    rw [hread] at h
    obtain ⟨-, rfl⟩ := Prod.mk.inj h
    refine .inl ⟨rfl, fun source hsource => ?_⟩
    cases hread.symm.trans hsource
  | ok source =>
    simp only [hread] at h
    split at h
    · rename_i hnone
      obtain ⟨-, rfl⟩ := Prod.mk.inj h
      refine .inl ⟨rfl, fun source' hsource => ?_⟩
      cases hread.symm.trans hsource
      exact List.isEmpty_iff.1 hnone
    · -- a file that is read can be written
      obtain ⟨t₁, target, hreplace, hpath, hrewritten⟩ := replace_of_read hread (autofixed source)
      rw [hreplace] at h
      obtain ⟨-, rfl⟩ := Prod.mk.inj h
      exact .inr ⟨source, target, hpath, hrewritten⟩

/-- A checked path is clean, and every path that was clean still is. -/
theorem Tree.clean_lintFile {t t' : Tree} {path : String} {r : FileReport}
    (h : (lintFile path true : StateM Tree FileReport) t = (r, t')) :
    t'.Clean path ∧ ∀ p, t.Clean p → t'.Clean p := by
  rcases lintFile_tree h with ⟨rfl, hclean⟩ | ⟨source, target, hpath, hrewritten⟩
  · exact ⟨hclean, fun _ hp => hp⟩
  · have hclean : ∀ p, t.resolve p = .ok target → t'.Clean p := by
      intro p hp source' hsource
      cases (hrewritten.read_target hp).symm.trans hsource
      exact fixesOf_autofixed source
    refine ⟨hclean path hpath, fun p hp => ?_⟩
    by_cases hsame : t.resolve p = .ok target
    · exact hclean p hsame
    · intro source' hsource
      rw [hrewritten.read_other hsame] at hsource
      exact hp source' hsource

theorem Tree.sameNames_lintFile {t t' : Tree} {path : String} {r : FileReport}
    (h : (lintFile path true : StateM Tree FileReport) t = (r, t')) : SameNames t t' := by
  rcases lintFile_tree h with ⟨rfl, -⟩ | ⟨source, target, -, hrewritten⟩
  · exact .refl t'
  · exact hrewritten.sameNames

/-- Once they are checked all paths are clean. -/
theorem Tree.clean_lintAll {t : Tree} {paths : List String} :
    (∀ p, t.Clean p → (t.lintAll paths).2.Clean p) ∧ ∀ p ∈ paths, (t.lintAll paths).2.Clean p := by
  induction paths generalizing t with
  | nil => exact ⟨fun _ hp => hp, fun _ hp => absurd hp List.not_mem_nil⟩
  | cons path paths ih =>
    rw [lintAll_cons]
    rcases hrun : (lintFile path true : StateM Tree FileReport) t with ⟨r, t'⟩
    obtain ⟨hpath, hstays⟩ := clean_lintFile hrun
    obtain ⟨hlater, hpaths⟩ := @ih t'
    refine ⟨fun p hp => hlater p (hstays p hp), ?_⟩
    rintro p (_ | ⟨_, hp⟩)
    · exact hlater path hpath
    · exact hpaths p hp

/-- Checking files moves none of them. -/
theorem Tree.sameNames_lintAll (t : Tree) (paths : List String) : SameNames t (t.lintAll paths).2 := by
  induction paths generalizing t with
  | nil => exact .refl t
  | cons path paths ih =>
    rw [lintAll_cons]
    rcases hrun : (lintFile path true : StateM Tree FileReport) t with ⟨r, t'⟩
    exact (sameNames_lintFile hrun).trans (ih t')

/-- Checking clean paths changes nothing and reports no fix. -/
theorem Tree.lintAll_of_clean {t : Tree} {paths : List String} (h : ∀ p ∈ paths, t.Clean p) :
    (t.lintAll paths).2 = t ∧ ∀ r ∈ (t.lintAll paths).1, r.fixable = 0 ∧ r.fixed = 0 := by
  induction paths with
  | nil => exact ⟨rfl, fun _ hr => absurd hr List.not_mem_nil⟩
  | cons path paths ih =>
    obtain ⟨r, hrun, hfixable, hfixed⟩ := (h path List.mem_cons_self).lintFile
    obtain ⟨htree, hreports⟩ := ih fun p hp => h p (List.mem_cons_of_mem _ hp)
    rw [lintAll_cons, hrun]
    refine ⟨htree, ?_⟩
    rintro r' (_ | ⟨_, hr⟩)
    · exact ⟨hfixable, hfixed⟩
    · exact hreports r' hr

/-- Checking files a second time changes none of them and finds no fix. -/
theorem lintFiles_again (t : Tree) (paths : List String) :
    let first := (lintFiles paths true : StateM Tree (List FileReport)) t
    let second := (lintFiles paths true : StateM Tree (List FileReport)) first.2
    second.2 = first.2 ∧ ∀ r ∈ second.1, r.fixable = 0 ∧ r.fixed = 0 := by
  have hclean : ∀ p ∈ Path.sort paths, (t.lintAll (Path.sort paths)).2.Clean p := Tree.clean_lintAll.2
  exact Tree.lintAll_of_clean hclean

/-- The command finds the same files a second time, and changes none of them. -/
theorem Command.runLint_again (environment : Option String) {options : LintOptions} (hfix : options.fix = true) (t : Tree) :
    let first := (runLint environment options : StateM Tree CommandResult) t
    ((runLint environment options : StateM Tree CommandResult) first.2).2 = first.2 := by
  intro first
  have hfirst : first.2 = (t.lintAll (Path.sort (filesOf options t))).2 := by
    rw [runLint_tree, hfix]
    rfl
  have hfiles : filesOf options first.2 = filesOf options t := by
    rw [hfirst]
    exact filesOf_congr (t.sameNames_lintAll _) options
  rw [runLint_tree, hfiles, hfix, hfirst]
  exact (lintFiles_again t (filesOf options t)).1

/-- Automatic fixes converge in one pass. A source with its fixes put in has no fix left; unresolved
in it are just the references that were and had no fix, each with the suggestion it had. So checking
files a second time finds no fix, and the command run a second time changes no file. -/
theorem autofix_converges :
    (∀ source : String, ∃ fixed, Edit.applyAll source (fixesOf (lint source)) = .ok fixed ∧ fixesOf (lint fixed) = [] ∧
      (((lint fixed).filter (·.isUnresolved)).map Diagnostic.bare).Perm
        (((lint source).filter fun d => d.isUnresolved && d.fix.isNone).map Diagnostic.bare) ∧
      ∀ s, parse source = .ok s → ∃ s', parse fixed = .ok s' ∧ s'.references.length = s.references.length ∧
        ∀ (i : Nat) y y', s.references[i]? = some y → s'.references[i]? = some y' → Settles y y') ∧
    (∀ (t : Tree) (paths : List String),
      let first := (lintFiles paths true : StateM Tree (List FileReport)) t
      let second := (lintFiles paths true : StateM Tree (List FileReport)) first.2
      second.2 = first.2 ∧ ∀ r ∈ second.1, r.fixable = 0 ∧ r.fixed = 0) ∧
    ∀ (t : Tree) (environment : Option String) (options : LintOptions), options.fix = true →
      let first := (Command.runLint environment options : StateM Tree CommandResult) t
      ((Command.runLint environment options : StateM Tree CommandResult) first.2).2 = first.2 := by
  refine ⟨fun source => ⟨autofixed source, applyAll_autofixed source, fixesOf_autofixed source, unresolved_autofixed source,
    fun s hparse => ?_⟩, lintFiles_again, fun t environment options hfix => Command.runLint_again environment hfix t⟩
  obtain ⟨s', hparse', hbare, hfixes⟩ := exists_repaired hparse
  have hreferences : s'.references.map (fun y => (y.1.bare, y.2.1, y.2.2.bare)) = s.references.map fun y =>
      ((y.1.renamed (renamingOf (fixesOf (lint source)))).bare, y.2.1,
        (y.2.2.renamed (renamingOf (fixesOf (lint source)))).bare) := by
    rw [← Schema.references_bare, hbare, Schema.references_bare, Schema.references_renamed, List.map_map]
    rfl
  refine ⟨s', hparse', by simpa using congrArg List.length hreferences, fun i y y' hy hy' => ?_⟩
  have hsame := congrArg (·[i]?) hreferences
  simp only [List.getElem?_map, hy, hy', Option.map_some, Option.some.injEq] at hsame
  obtain ⟨tx, htx, hmem⟩ := List.mem_flatMap.1 (List.mem_of_getElem? hy)
  obtain ⟨x, hx, rfl⟩ := List.mem_map.1 hmem
  exact settles_of_bare_eq (hfixes tx htx) hx hsame

/-- The one fix of a wrong call is put in, and no fix is left. -/
theorem autofix_of_wrongCall_converges :
    let source := "transaction T\x7bfunction f()\x7b\x7dblock A\x7bcall g(1)\x7d\x7d"
    let t : Tree := ⟨[("t.omt", .file (.text source) none)]⟩
    let options : LintOptions := ⟨["t.omt"], false, true, "./protocol", .text, false⟩
    fixesOf (lint source) = [⟨41, 42, "f"⟩] ∧
      (∃ fixed, Edit.applyAll source [⟨41, 42, "f"⟩] = .ok fixed ∧ fixesOf (lint fixed) = [] ∧
        ∃ s' y y', parse fixed = .ok s' ∧ wrongCall.schema.references = [y] ∧ s'.references = [y'] ∧ Settles y y') ∧
      (∃ r, ((lintFiles ["t.omt"] true : StateM Tree (List FileReport))
        ((lintFiles ["t.omt"] true : StateM Tree (List FileReport)) t).2).1 = [r] ∧ r.fixable = 0 ∧ r.fixed = 0) ∧
      options.fix = true ∧
      ((Command.runLint none options : StateM Tree CommandResult)
        ((Command.runLint none options : StateM Tree CommandResult) t).2).2 =
          ((Command.runLint none options : StateM Tree CommandResult) t).2 := by
  intro source t options
  have hfixes : fixesOf (lint source) = [⟨41, 42, "f"⟩] := fixesOf_wrongCall
  obtain ⟨fixed, happly, hnone, -, hreferences⟩ := autofix_converges.1 source
  obtain ⟨s', hparse, hlength, hsettles⟩ := hreferences _ parse_wrongCall
  obtain ⟨y, hy⟩ : ∃ y, wrongCall.schema.references = [y] := ⟨_, rfl⟩
  obtain ⟨y', hy'⟩ : ∃ y', s'.references = [y'] := by
    rw [hy] at hlength
    exact List.length_eq_one_iff.1 hlength
  have hsettled : Settles y y' := hsettles 0 y y' (by rw [hy]; rfl) (by rw [hy']; rfl)
  refine ⟨hfixes, ⟨fixed, hfixes ▸ happly, hnone, s', y, y', hparse, hy, hy', hsettled⟩, ?_, rfl, ?_⟩
  · have hone : ∀ t' : Tree, ((lintFiles ["t.omt"] true : StateM Tree (List FileReport)) t').1 =
        [((lintFile "t.omt" true : StateM Tree FileReport) t').1] := by
      intro t'
      unfold lintFiles Path.sort
      rw [List.mergeSort_singleton]
      exact congrArg Prod.fst (t'.lintAll_cons "t.omt" [])
    refine ⟨_, hone _, ?_⟩
    exact (autofix_converges.2.1 t ["t.omt"]).2 _ (by rw [hone]; exact List.mem_singleton_self _)
  · exact autofix_converges.2.2 t none options rfl

end Parley
