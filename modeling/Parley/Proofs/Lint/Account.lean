/-
The account of automatic fixes. Of the errors, those that had a fix are gone, one for each fix; new
are only calls that do not fit the function a fix put in, at most one for each fix. No warning is
new. This is shown for each list of issues of a transaction, and adds up over the transactions.
-/
import Parley.Proofs.Analysis.Repair
import Parley.Proofs.Lint.Bare
import Mathlib

namespace Parley

/-! ## Accounts -/

/-- What becomes of diagnostics. -/
structure Accounts (before after new : List Diagnostic) : Prop where
  /-- The errors are those that had no fix, and the new ones. -/
  errors : (after.filter (·.isError)).Perm ((before.filter fun d => d.isError && d.fix.isNone) ++ new)
  /-- No warning is new. -/
  warnings : (after.filter fun d => !d.isError).Subperm (before.filter fun d => !d.isError)

namespace Accounts

variable {before after new before' after' new' : List Diagnostic}

theorem append (h : Accounts before after new) (h' : Accounts before' after' new') :
    Accounts (before ++ before') (after ++ after') (new ++ new') := by
  constructor
  · rw [List.filter_append, List.filter_append]
    refine (h.errors.append h'.errors).trans ?_
    rw [List.append_assoc, List.append_assoc]
    exact (List.perm_append_comm_assoc _ _ _).append_left _
  · rw [List.filter_append, List.filter_append]
    exact h.warnings.append h'.warnings

/-- Without fixes nothing changes. -/
theorem refl (h : ∀ d ∈ before, d.fix = none) : Accounts before before [] := by
  constructor
  · rw [List.append_nil]
    refine .of_eq (List.filter_congr fun d hd => ?_)
    rw [h d hd]
    simp
  · exact .refl _

theorem of_warnings (hall : ∀ d ∈ before, d.isError = false) (h : after.Sublist before) : Accounts before after [] := by
  constructor
  · have hbefore : (before.filter fun d => d.isError && d.fix.isNone) = [] :=
      List.filter_eq_nil_iff.2 fun d hd => by simp [hall d hd]
    have hafter : after.filter (·.isError) = [] :=
      List.filter_eq_nil_iff.2 fun d hd => by simp [hall d (h.subset hd)]
    rw [hbefore, hafter]
    exact .nil
  · exact (h.filter _).subperm

theorem of_errors (hbefore : ∀ d ∈ before, d.isError = true) (hafter : ∀ d ∈ after, d.isError = true)
    (h : after.Perm (before.filter (·.fix.isNone) ++ new)) : Accounts before after new := by
  constructor
  · rw [List.filter_eq_self.2 hafter]
    refine h.trans (.of_eq (congrArg (· ++ new) (List.filter_congr fun d hd => ?_)))
    rw [hbefore d hd, Bool.true_and]
  · have hnone : (after.filter fun d => !d.isError) = [] :=
      List.filter_eq_nil_iff.2 fun d hd => by simp [hafter d hd]
    rw [hnone]
    exact List.nil_subperm

theorem perm (h : Accounts before after new) (hbefore : before.Perm before') (hafter : after.Perm after') :
    Accounts before' after' new := by
  constructor
  · exact ((hafter.filter _).symm.trans h.errors).trans ((hbefore.filter _).append_right _)
  · exact ((hafter.filter _).symm.subperm.trans h.warnings).trans (hbefore.filter _).subperm

theorem map_bare (h : Accounts before after new) :
    Accounts (before.map Diagnostic.bare) (after.map Diagnostic.bare) (new.map Diagnostic.bare) := by
  have hfix : ∀ d : Diagnostic, d.bare.fix.isNone = d.fix.isNone := fun d => by simp [Diagnostic.bare]
  constructor
  · have := h.errors.map Diagnostic.bare
    simpa only [List.filter_map, Function.comp_def, Diagnostic.isError_bare, hfix, List.map_append] using this
  · obtain ⟨kept, hperm, hsublist⟩ := h.warnings
    simp only [List.filter_map, Function.comp_def, Diagnostic.isError_bare]
    exact ⟨kept.map Diagnostic.bare, hperm.map _, hsublist.map _⟩

end Accounts

/-! ## Transactions -/

theorem Diagnostic.finding_ofIssue (symbols : Symbols) (issue : Issue) :
    (Diagnostic.ofIssue symbols issue).finding = .violation issue.violation := by
  unfold ofIssue
  split
  · split <;> rfl
  · rfl

theorem Diagnostic.isError_ofIssue (symbols : Symbols) (issue : Issue) :
    (Diagnostic.ofIssue symbols issue).isError = issue.isError := by
  rw [isError, finding_ofIssue]
  rfl

namespace Transaction

/-- The diagnostics of fixed calls that do not fit the function put in. -/
def misfits (tx : Transaction) : List Diagnostic :=
  (tx.statements.filterMap tx.misfit?).map (Diagnostic.ofIssue tx.symbols)

section

variable {ρ : Renaming} {tx : Transaction}

theorem accounts_unfixable {issues : List Issue} (h : ∀ issue ∈ issues, tx.fixOf? issue = none) :
    Accounts (issues.map (Diagnostic.ofIssue tx.symbols)) (issues.map (Diagnostic.ofIssue tx.symbols)) [] := by
  refine .refl fun d hd => ?_
  obtain ⟨issue, hissue, rfl⟩ := List.mem_map.1 hd
  exact h issue hissue

variable (hfixes : ρ.Fixes tx)

include hfixes

theorem accounts_references : Accounts (tx.referenceIssues.map (Diagnostic.ofIssue tx.symbols))
    ((tx.renamed ρ).referenceIssues.map (Diagnostic.ofIssue tx.symbols)) [] := by
  have hunresolved : ∀ issue ∈ tx.referenceIssues, issue.isError = true := by
    intro issue h
    obtain ⟨x, -, hx⟩ := List.mem_filterMap.1 h
    dsimp only at hx
    split at hx <;> cases hx
    rfl
  have herrors : ∀ d ∈ tx.referenceIssues.map (Diagnostic.ofIssue tx.symbols), d.isError = true := by
    intro d hd
    obtain ⟨issue, hissue, rfl⟩ := List.mem_map.1 hd
    rw [Diagnostic.isError_ofIssue, hunresolved issue hissue]
  have hafter : (tx.renamed ρ).referenceIssues.map (Diagnostic.ofIssue tx.symbols) =
      (tx.referenceIssues.map (Diagnostic.ofIssue tx.symbols)).filter (·.fix.isNone) := by
    rw [referenceIssues_renamed hfixes, List.filter_map]
    rfl
  refine .of_errors herrors (fun d hd => ?_) (.of_eq ?_)
  · rw [hafter] at hd
    exact herrors d (List.mem_filter.1 hd).1
  · rw [hafter, List.append_nil]

theorem accounts_structure : Accounts (tx.structureIssues.map (Diagnostic.ofIssue tx.symbols))
    ((tx.renamed ρ).structureIssues.map (Diagnostic.ofIssue tx.symbols)) [] := by
  obtain ⟨missing, hbefore, hafter⟩ : ∃ missing, tx.structureIssues = missing ++ tx.flowIssues ∧
      (tx.renamed ρ).structureIssues = missing ++ (tx.renamed ρ).flowIssues := by
    refine ⟨_, rfl, ?_⟩
    have hmessages : (tx.renamed ρ).messages.isEmpty = tx.messages.isEmpty := List.isEmpty_map
    simp only [structureIssues, hmessages]
    rfl
  have hunfixable : ∀ issue ∈ missing ++ tx.flowIssues, tx.fixOf? issue = none := fun _ h => fixOf?_structure (hbefore ▸ h)
  rw [hbefore, hafter, List.map_append, List.map_append]
  refine (accounts_unfixable fun issue h => hunfixable issue (List.mem_append_left _ h)).append ?_
  rcases flowIssues_renamed hfixes with hsame | ⟨hsublist, hwarnings⟩
  · rw [hsame]
    exact accounts_unfixable fun issue h => hunfixable issue (List.mem_append_right _ h)
  · refine .of_warnings (fun d hd => ?_) (hsublist.map _)
    obtain ⟨issue, hissue, rfl⟩ := List.mem_map.1 hd
    rw [Diagnostic.isError_ofIssue, hwarnings issue hissue]

theorem accounts_arity : Accounts (tx.arityIssues.map (Diagnostic.ofIssue tx.symbols))
    ((tx.renamed ρ).arityIssues.map (Diagnostic.ofIssue tx.symbols)) tx.misfits := by
  have herrors : ∀ (tx' : Transaction), ∀ d ∈ tx'.arityIssues.map (Diagnostic.ofIssue tx.symbols), d.isError = true := by
    intro tx' d hd
    obtain ⟨issue, hissue, rfl⟩ := List.mem_map.1 hd
    obtain ⟨name, expected, actual, hviolation⟩ := violation_arity hissue
    rw [Diagnostic.isError_ofIssue, Issue.isError, hviolation]
    rfl
  have hunfixable : (tx.arityIssues.map (Diagnostic.ofIssue tx.symbols)).filter (·.fix.isNone) =
      tx.arityIssues.map (Diagnostic.ofIssue tx.symbols) := by
    refine List.filter_eq_self.2 fun d hd => ?_
    obtain ⟨issue, hissue, rfl⟩ := List.mem_map.1 hd
    exact Option.isNone_iff_eq_none.2 (fixOf?_arity hissue)
  refine .of_errors (herrors tx) (herrors _) ?_
  rw [hunfixable, misfits, ← List.map_append]
  exact (arityIssues_renamed hfixes).map _

theorem accounts_style :
    Accounts (tx.styleIssues.map Diagnostic.ofStyleIssue) ((tx.renamed ρ).styleIssues.map Diagnostic.ofStyleIssue) [] := by
  rw [styleIssues, styleIssues, namingIssues_renamed]
  refine .of_warnings (fun d hd => ?_) (((unusedIssues_renamed hfixes).append_left _).map _)
  obtain ⟨issue, -, rfl⟩ := List.mem_map.1 hd
  rfl

/-- The account of a transaction; `more` are issues that it has besides its own. -/
theorem accounts_diagnostics {more : List Issue} (hmore : ∀ issue ∈ more, tx.fixOf? issue = none) :
    Accounts (tx.diagnostics (more ++ tx.issues)) ((tx.renamed ρ).diagnostics (more ++ (tx.renamed ρ).issues)) tx.misfits := by
  have hduplicate := accounts_unfixable fun issue => @fixOf?_duplicate tx issue
  have htype := accounts_unfixable fun issue => @fixOf?_type tx issue
  unfold diagnostics issues
  rw [symbols_renamed, duplicateIssues_renamed, typeIssues_renamed]
  simp only [List.map_append]
  have := (accounts_unfixable hmore).append (hduplicate.append ((accounts_references hfixes).append
    ((accounts_structure hfixes).append ((accounts_arity hfixes).append (htype.append (accounts_style hfixes))))))
  simpa only [List.append_assoc, List.nil_append, List.append_nil] using this

end

end Transaction

/-! ## Schemas -/

/-- The diagnostics of all fixed calls that do not fit the function put in. -/
def Schema.misfits (s : Schema) : List Diagnostic := s.transactions.flatMap Transaction.misfits

theorem Schema.accounts_issuesAfter {ρ : Renaming} {seen : Namespace} {txs : List Transaction} (hfixes : ∀ tx ∈ txs, ρ.Fixes tx) :
    Accounts ((issuesAfter seen txs).flatMap fun x => x.1.diagnostics x.2)
      ((issuesAfter seen (txs.map (Transaction.renamed ρ))).flatMap fun x => x.1.diagnostics x.2)
      (txs.flatMap Transaction.misfits) := by
  induction txs generalizing seen with
  | nil => exact .refl fun _ h => absurd h List.not_mem_nil
  | cons tx txs ih =>
    have hrest := fun seen => @ih seen fun tx' h => hfixes tx' (List.mem_cons_of_mem _ h)
    have htx := fun more hmore => @Transaction.accounts_diagnostics ρ tx (hfixes tx List.mem_cons_self) more hmore
    have hname : (tx.renamed ρ).name = tx.name := rfl
    have hspan : (tx.renamed ρ).span = tx.span := rfl
    rw [List.map_cons]
    unfold issuesAfter
    rw [hname, hspan]
    cases seen.declare tx.name tx.span with
    | ok seen =>
      have hown := htx [] fun _ h => absurd h List.not_mem_nil
      simp only [List.nil_append] at hown
      simp only [List.flatMap_cons]
      exact hown.append (hrest seen)
    | error first =>
      have hown := htx [⟨.duplicate .transaction tx.name first, tx.span⟩] fun issue h => by
        obtain rfl := List.mem_singleton.1 h
        exact Transaction.fixOf?_none fun _ _ h => by cases h
      simp only [List.singleton_append] at hown
      simp only [List.flatMap_cons]
      exact hown.append (hrest seen)

theorem Schema.accounts_findings {ρ : Renaming} {s : Schema} (hfixes : ∀ tx ∈ s.transactions, ρ.Fixes tx) :
    Accounts s.findings (s.renamed ρ).findings s.misfits := accounts_issuesAfter hfixes

/-! ## Sources -/

/-- The diagnostics of fixed calls of a source that do not fit the function put in. -/
def misfitsOf (source : String) : List Diagnostic :=
  match parse source with
  | .ok s => s.misfits
  | .error _ => []

/-- Only unresolved references have fixes. -/
theorem unresolved_of_fix {source : String} {d : Diagnostic} (hd : d ∈ lint source) (hfix : d.fix ≠ none) :
    ∃ category name, d.finding = .violation (.unresolved category name) := by
  obtain ⟨e, he⟩ := Option.ne_none_iff_exists'.1 hfix
  obtain ⟨s, -, hlint⟩ := lint_of_fixes (List.ne_nil_of_mem (List.mem_filterMap.2 ⟨d, hd, he⟩))
  rw [hlint] at hd
  obtain ⟨⟨tx, issues⟩, -, hd⟩ := List.mem_flatMap.1 (s.diagnostics_perm.subset hd)
  rcases List.mem_append.1 hd with hd | hd
  · obtain ⟨issue, -, rfl⟩ := List.mem_map.1 hd
    rw [Diagnostic.finding_ofIssue]
    by_contra hne
    refine hfix (@Transaction.fixOf?_none tx _ fun category name hviolation => hne ⟨category, name, ?_⟩)
    rw [hviolation]
  · obtain ⟨issue, -, rfl⟩ := List.mem_map.1 hd
    exact absurd rfl hfix

theorem accounts_autofixed (source : String) : Accounts ((lint source).map Diagnostic.bare)
    ((lint (autofixed source)).map Diagnostic.bare) ((misfitsOf source).map Diagnostic.bare) := by
  unfold misfitsOf
  cases hparse : parse source with
  | ok s =>
    obtain ⟨s', hparse', hbare, hfixes⟩ := exists_repaired hparse
    rw [lint_of_parse hparse, lint_of_parse hparse']
    refine (Schema.accounts_findings hfixes).map_bare.perm (s.diagnostics_perm.symm.map _) ?_
    exact ((Schema.diagnostics_perm _).symm.map _).trans (Schema.diagnostics_of_bare_eq hbare.symm)
  | error e =>
    have hnone : fixesOf (lint source) = [] := by
      by_contra hne
      obtain ⟨s, hs, -⟩ := lint_of_fixes hne
      rw [hparse] at hs
      cases hs
    rw [(autofixed_of_no_fixes hnone).2]
    refine .refl fun d hd => ?_
    obtain ⟨d₀, hd₀, rfl⟩ := List.mem_map.1 hd
    rw [Diagnostic.bare, List.filterMap_eq_nil_iff.1 hnone d₀ hd₀]
    rfl

/-! ## Counts -/

/-- A misfit is of a fixed call. -/
theorem Schema.length_misfits (s : Schema) :
    s.misfits.length ≤ (s.references.filterMap fun y => y.1.fixFor? y.2).length := by
  have htx : ∀ tx : Transaction, tx.misfits.length ≤ (tx.references.filterMap tx.fixFor?).length := by
    intro tx
    rw [Transaction.misfits, List.length_map, Transaction.references, List.filterMap_append, List.length_append,
      List.filterMap_map, List.length_filterMap_eq_countP, @List.length_filterMap_eq_countP _ _ _ tx.statements]
    refine Nat.le_trans (List.countP_mono_left fun s _ h => ?_) (Nat.le_add_left _ _)
    obtain ⟨action, guard, span⟩ := s
    cases action with
    | call ref args =>
      obtain ⟨issue, hissue⟩ := Option.isSome_iff_exists.1 h
      obtain ⟨e, he, -⟩ := Option.bind_eq_some_iff.1 hissue
      exact Option.isSome_of_eq_some he
    | _ => cases h
  unfold misfits references
  induction s.transactions with
  | nil => exact Nat.le_refl _
  | cons tx txs ih =>
    rw [List.flatMap_cons, List.flatMap_cons, List.filterMap_append, List.length_append, List.length_append, List.filterMap_map]
    exact Nat.add_le_add (htx tx) ih

theorem length_misfitsOf (source : String) : (misfitsOf source).length ≤ (fixesOf (lint source)).length := by
  unfold misfitsOf
  cases hparse : parse source with
  | ok s =>
    rw [lint_of_parse hparse, s.fixes_perm.length_eq]
    exact s.length_misfits
  | error e => exact Nat.zero_le _

@[simp] theorem errorCount_map_bare (ds : List Diagnostic) : errorCount (ds.map Diagnostic.bare) = errorCount ds := by
  simp [errorCount, List.filter_map, Function.comp_def]

@[simp] theorem warningCount_map_bare (ds : List Diagnostic) : warningCount (ds.map Diagnostic.bare) = warningCount ds := by
  simp [warningCount]

theorem warningCount_eq (ds : List Diagnostic) : warningCount ds = (ds.filter fun d => !d.isError).length := by
  have hsplit := ds.length_eq_countP_add_countP (·.isError)
  rw [warningCount, errorCount, ← List.countP_eq_length_filter, ← List.countP_eq_length_filter, hsplit, Nat.add_sub_cancel_left]
  simp

theorem Accounts.errorCount_le {before after new : List Diagnostic} (h : Accounts before after new)
    (hnew : new.length ≤ (before.filter fun d => d.isError && d.fix.isSome).length) : errorCount after ≤ errorCount before := by
  have hafter : errorCount after = _ := h.errors.length_eq
  have hbefore : errorCount before = _ := before.countP_eq_length_filter.symm.trans
    (before.countP_eq_countP_filter_add Diagnostic.isError (·.fix.isNone))
  simp only [List.countP_eq_length_filter, List.filter_filter, Option.not_isNone] at hbefore
  rw [List.length_append] at hafter
  omega

theorem Accounts.warningCount_le {before after new : List Diagnostic} (h : Accounts before after new) :
    warningCount after ≤ warningCount before := by
  rw [warningCount_eq, warningCount_eq]
  exact h.warnings.length_le

/-- Putting in the fixes of a source accounts for all its diagnostics, up to places. The errors are
those that it had less one unresolved reference for each fix, and one call that does not fit its
function for each fixed call with a wrong number of arguments. Its warnings are among those that it
had. So there are no more errors and no more warnings. -/
theorem autofix_never_worsens (source : String) :
    Edit.applyAll source (fixesOf (lint source)) = .ok (autofixed source) ∧
      Accounts ((lint source).map Diagnostic.bare) ((lint (autofixed source)).map Diagnostic.bare)
        ((misfitsOf source).map Diagnostic.bare) ∧
      (∀ d ∈ lint source, d.fix ≠ none →
        d.isError = true ∧ ∃ category name, d.finding = .violation (.unresolved category name)) ∧
      ((lint source).filter (·.fix.isSome)).length = (fixesOf (lint source)).length ∧
      errorCount (lint (autofixed source)) ≤ errorCount (lint source) ∧
      warningCount (lint (autofixed source)) ≤ warningCount (lint source) := by
  have haccounts := accounts_autofixed source
  have hunresolved : ∀ d ∈ lint source, d.fix ≠ none →
      d.isError = true ∧ ∃ category name, d.finding = .violation (.unresolved category name) := by
    intro d hd hfix
    obtain ⟨category, name, hfinding⟩ := unresolved_of_fix hd hfix
    refine ⟨?_, category, name, hfinding⟩
    rw [Diagnostic.isError, hfinding]
    rfl
  have hcount : ((lint source).filter (·.fix.isSome)).length = (fixesOf (lint source)).length := by
    rw [fixesOf, List.length_filterMap_eq_countP, List.countP_eq_length_filter]
  refine ⟨applyAll_autofixed source, haccounts, hunresolved, hcount, ?_, ?_⟩
  · rw [← errorCount_map_bare, ← errorCount_map_bare (lint source)]
    apply haccounts.errorCount_le
    have hfixed : ((lint source).filter fun d => d.isError && d.fix.isSome) = (lint source).filter (·.fix.isSome) := by
      refine List.filter_congr fun d hd => ?_
      cases hfix : d.fix with
      | none => exact Bool.and_false _
      | some e => rw [(hunresolved d hd (by rw [hfix]; exact Option.some_ne_none e)).1]; rfl
    have hbare : ∀ d : Diagnostic, d.bare.fix.isSome = d.fix.isSome := fun d => by simp [Diagnostic.bare]
    simp only [List.length_map, List.filter_map, Function.comp_def, Diagnostic.isError_bare, hbare, hfixed, hcount]
    exact length_misfitsOf source
  · rw [← warningCount_map_bare, ← warningCount_map_bare (lint source)]
    exact haccounts.warningCount_le

/-- The derivation of `transaction T{function f(){}block A{call g(1)}}`. -/
def wrongCall : SchemaTree where
  first :=
    { header := ⟨.placed () "transaction" ⟨0, 11, 1, 1⟩, .placed "T" "T" ⟨12, 1, 1, 13⟩, none, .placed () "\x7b" ⟨13, 1, 1, 14⟩⟩
      declarations := [
        .function ⟨.placed () "function" ⟨14, 8, 1, 15⟩, .placed "f" "f" ⟨23, 1, 1, 24⟩, .placed () "(" ⟨24, 1, 1, 25⟩,
          none, .placed () ")" ⟨25, 1, 1, 26⟩, none, .placed () "\x7b" ⟨26, 1, 1, 27⟩, none, .placed () "\x7d" ⟨27, 1, 1, 28⟩⟩,
        .block ⟨none, .placed () "block" ⟨28, 5, 1, 29⟩, .placed "A" "A" ⟨34, 1, 1, 35⟩,
          .placed () "\x7b" ⟨35, 1, 1, 36⟩,
          [(⟨.call (.placed () "call" ⟨36, 4, 1, 37⟩) (.placed "g" "g" ⟨41, 1, 1, 42⟩) (.placed () "(" ⟨42, 1, 1, 43⟩)
            (some ⟨.mk (.mk (.cmp (.operand (.integer (.placed 1 "1" ⟨43, 1, 1, 44⟩)))) .none) .none, []⟩)
            (.placed () ")" ⟨44, 1, 1, 45⟩), none⟩, none)],
          .placed () "\x7d" ⟨45, 1, 1, 46⟩⟩]
      right := .placed () "\x7d" ⟨46, 1, 1, 47⟩ }
  more := []

theorem parse_wrongCall : parse "transaction T\x7bfunction f()\x7b\x7dblock A\x7bcall g(1)\x7d\x7d" = .ok wrongCall.schema :=
  parse_ok_iff_derivation.2 ⟨wrongCall, by cbv, rfl⟩

theorem fixesOf_wrongCall :
    fixesOf (lint "transaction T\x7bfunction f()\x7b\x7dblock A\x7bcall g(1)\x7d\x7d") = [⟨41, 42, "f"⟩] := by
  have hperm := wrongCall.schema.fixes_perm
  rw [show (wrongCall.schema.references.filterMap fun y => y.1.fixFor? y.2) = [⟨41, 42, "f"⟩] by cbv] at hperm
  rw [lint_of_parse parse_wrongCall]
  exact hperm.eq_singleton

/-- The call of `g` is fixed to one of `f`, which has no parameters. -/
theorem autofix_of_wrongCall :
    let source := "transaction T\x7bfunction f()\x7b\x7dblock A\x7bcall g(1)\x7d\x7d"
    misfitsOf source = [⟨.violation (.arity "f" 0 1), ⟨36, 9, 1, 37⟩, none, none⟩] ∧
      (⟨.violation (.arity "f" 0 1), .nowhere, none, none⟩ : Diagnostic) ∈ (lint (autofixed source)).map Diagnostic.bare ∧
      (∃ d ∈ lint source, d.fix = some ⟨41, 42, "f"⟩ ∧ d.isError = true ∧
        ∃ category name, d.finding = .violation (.unresolved category name)) ∧
      errorCount (lint (autofixed source)) ≤ errorCount (lint source) := by
  intro source
  have hmisfits : misfitsOf source = [⟨.violation (.arity "f" 0 1), ⟨36, 9, 1, 37⟩, none, none⟩] := by
    rw [misfitsOf, parse_wrongCall]
    cbv
  obtain ⟨-, haccounts, hunresolved, -, herrors, -⟩ := autofix_never_worsens source
  refine ⟨hmisfits, ?_, ?_, herrors⟩
  · have hnew := haccounts.errors.symm.subset (List.mem_append_right _ (List.mem_map_of_mem (hmisfits ▸ List.mem_singleton_self _)))
    exact (List.mem_filter.1 hnew).1
  · have hfix : (⟨41, 42, "f"⟩ : Edit) ∈ fixesOf (lint source) := by
      rw [fixesOf_wrongCall]
      exact List.mem_singleton_self _
    obtain ⟨d, hd, hfix⟩ := List.mem_filterMap.1 hfix
    exact ⟨d, hd, hfix, hunresolved d hd (by rw [hfix]; exact Option.some_ne_none _)⟩

end Parley
