/-
What is found in a schema is the same, up to places, for schemas with the same structure. Every
function of the analysis commutes with erasing spans: the namespaces, each list of issues, the flaws
of style, and so the diagnostics.
-/
import Parley.Lint.Check
import Parley.Proofs.Grammar.Blind

namespace Parley

open Grammar (bareDeclaration)

/-! ## Findings without spans -/

def Namespace.bare (ns : Namespace) : Namespace := ⟨ns.names, ns.spans.map fun e => (e.1, .nowhere)⟩

def Repetition.bare (r : Repetition) : Repetition := { r with first := .nowhere, again := .nowhere }

def Symbols.bare (symbols : Symbols) : Symbols :=
  ⟨symbols.actors.bare, symbols.messages.bare, symbols.blocks.bare, symbols.functions.bare⟩

/-- A violation without the place that its message names. -/
def Violation.bare : Violation → Violation
  | duplicate what name _ => duplicate what name .nowhere
  | v => v

def Issue.bare (issue : Issue) : Issue := ⟨issue.violation.bare, .nowhere⟩

def StyleIssue.bare (issue : StyleIssue) : StyleIssue := { issue with span := .nowhere }

def Finding.bare : Finding → Finding
  | violation v => violation v.bare
  | f => f

/-- The text that an edit puts in, wherever that is. -/
def Edit.bare (e : Edit) : Edit := .replacing .nowhere e.text

def Diagnostic.bare (d : Diagnostic) : Diagnostic := ⟨d.finding.bare, .nowhere, d.suggestion, d.fix.map Edit.bare⟩

@[simp] theorem Violation.severity_bare (v : Violation) : v.bare.severity = v.severity := by
  cases v <;> rfl

@[simp] theorem Finding.severity_bare (f : Finding) : f.bare.severity = f.severity := by
  cases f <;> simp [bare, severity]

@[simp] theorem Diagnostic.isError_bare (d : Diagnostic) : d.bare.isError = d.isError := by
  simp [isError, bare]

/-! ## Namespaces -/

namespace Namespace

theorem first?_bare (ns : Namespace) (name : String) : ns.bare.first? name = (ns.first? name).map fun _ => .nowhere := by
  obtain ⟨names, spans⟩ := ns
  unfold first? bare
  induction spans with
  | nil => rfl
  | cons e spans ih =>
    dsimp only at ih ⊢
    rw [List.map_cons, List.lookup_cons, List.lookup_cons]
    cases name == e.1
    · exact ih
    · rfl

@[simp] theorem contains_bare (ns : Namespace) (name : String) : ns.bare.contains name = ns.contains name := by
  simp [contains, first?_bare]

@[simp] theorem names_bare (ns : Namespace) : ns.bare.names = ns.names := rfl

theorem declare_bare (ns : Namespace) (name : String) (span : Span) :
    ns.bare.declare name .nowhere = ((ns.declare name span).mapError fun _ => Span.nowhere).map bare := by
  unfold declare
  rw [first?_bare]
  cases ns.first? name with
  | some first => rfl
  | none => simp [bare, Except.map, Except.mapError]

theorem declareAll_bare (category : Category) (ns : Namespace) (decls : List Declaration) :
    ns.bare.declareAll category (decls.map bareDeclaration) =
      ((ns.declareAll category decls).1.bare, (ns.declareAll category decls).2.map Repetition.bare) := by
  induction decls generalizing ns with
  | nil => rfl
  | cons d decls ih =>
    have hname : (bareDeclaration d).name = d.name := by cases d <;> rfl
    have hspan : (bareDeclaration d).span = .nowhere := by cases d <;> rfl
    rw [List.map_cons]
    unfold declareAll
    rw [hname, hspan, declare_bare ns d.name d.span]
    cases ns.declare d.name d.span with
    | ok ns => exact ih ns
    | error first =>
      simp only [Except.mapError, Except.map, ih, List.map_cons]
      rfl

end Namespace

theorem Symbols.namespaceOf_bare (symbols : Symbols) (category : Category) :
    symbols.bare.namespaceOf category = (symbols.namespaceOf category).bare := by
  cases category <;> rfl

@[simp] theorem Symbols.resolves_bare (symbols : Symbols) (category : Category) (name : String) :
    symbols.bare.resolves category name = symbols.resolves category name := by
  rw [resolves, namespaceOf_bare, Namespace.contains_bare, resolves]

/-! ## Transactions -/

theorem Action.targetCategory_bare (a : Action) : a.bare.targetCategory = a.targetCategory := by
  cases a <;> rfl

theorem Action.target_bare (a : Action) : a.bare.target = a.target.bare := by
  cases a <;> rfl

theorem Action.gotoTarget?_bare (a : Action) : a.bare.gotoTarget? = a.gotoTarget? := by
  cases a <;> rfl

mutual

theorem TypeExpr.issues_bare : ∀ type : TypeExpr, type.bare.issues = type.issues.map Issue.bare
  | ⟨name, args, span⟩ => by
    rw [bare, issues, issues, List.map_append, TypeExpr.allIssues_bare args]
    split <;> rfl

theorem TypeExpr.allIssues_bare : ∀ types : List TypeExpr, allIssues (bareAll types) = (allIssues types).map Issue.bare
  | [] => rfl
  | type :: types => by
    rw [bareAll, allIssues, allIssues, List.map_append, TypeExpr.issues_bare type, TypeExpr.allIssues_bare types]

end

namespace Transaction

variable (tx : Transaction)

theorem declarations_bare : tx.bare.declarations = tx.declarations.map bareDeclaration := by
  simp only [declarations, bare, List.map_append, List.map_map]
  rfl

theorem declared_bare (category : Category) : tx.bare.declared category = (tx.declared category).map bareDeclaration := by
  have hcategory : ∀ d : Declaration, (bareDeclaration d).category = d.category := fun d => by cases d <;> rfl
  simp only [declared, declarations_bare, List.filter_map, Function.comp_def, hcategory]

theorem declareAll_bare (category : Category) :
    tx.bare.declareAll category = ((tx.declareAll category).1.bare, (tx.declareAll category).2.map Repetition.bare) := by
  rw [declareAll, declared_bare]
  exact Namespace.empty.declareAll_bare category (tx.declared category)

theorem symbols_bare : tx.bare.symbols = tx.symbols.bare := by
  simp only [symbols, declareAll_bare]
  rfl

theorem statements_bare : tx.bare.statements = tx.statements.map Statement.bare := by
  simp only [statements, bare, List.flatMap_map, List.map_flatMap]
  rfl

theorem hasTransitions_bare : tx.bare.hasTransitions = tx.hasTransitions := by
  simp only [hasTransitions, statements_bare, List.any_map, Function.comp_def, Statement.bare, Action.gotoTarget?_bare]

theorem references_bare : tx.bare.references = tx.references.map fun x => (x.1, x.2.bare) := by
  unfold references
  rw [statements_bare]
  simp only [bare, List.flatMap_map, List.map_append, List.map_flatMap, List.map_map, Function.comp_def, Statement.bare,
    Action.targetCategory_bare, Action.target_bare, List.map_cons, List.map_nil]
  rfl

theorem gotoEdges_bare : tx.bare.gotoEdges = tx.gotoEdges := by
  simp only [gotoEdges, bare, List.flatMap_map, Block.bare, List.filterMap_map, Function.comp_def, Statement.bare,
    Action.gotoTarget?_bare]

theorem entryNames_bare : tx.bare.entryNames = tx.entryNames := by
  simp only [entryNames, bare, List.filter_map, List.map_map, Function.comp_def]
  rfl

theorem reachable_bare : tx.bare.reachable = tx.reachable := by
  rw [reachable, gotoEdges_bare, entryNames_bare, reachable]

theorem function?_bare (name : String) : tx.bare.function? name = (tx.function? name).map Function.bare := by
  simp only [function?, bare, List.find?_map]
  rfl

theorem duplicateIssues_bare : tx.bare.duplicateIssues = tx.duplicateIssues.map Issue.bare := by
  simp only [duplicateIssues, repetitions, declareAll_bare, List.map_flatMap, List.map_map]
  rfl

theorem referenceIssues_bare : tx.bare.referenceIssues = tx.referenceIssues.map Issue.bare := by
  unfold referenceIssues
  rw [references_bare, symbols_bare, List.filterMap_map, List.map_filterMap]
  congr 1
  funext x
  simp only [Function.comp_apply, Symbols.resolves_bare, Reference.bare]
  split <;> rfl

theorem flowIssues_bare : tx.bare.flowIssues = tx.flowIssues.map Issue.bare := by
  have hentry : tx.bare.blocks.any (·.entry) = tx.blocks.any (·.entry) := by
    simp only [bare, List.any_map]
    rfl
  unfold flowIssues
  rw [hasTransitions_bare, hentry, reachable_bare]
  split
  · rfl
  split
  · rfl
  · simp only [bare, List.filterMap_map, List.map_filterMap]
    congr 1
    funext b
    have hname : b.bare.name = b.name := rfl
    simp only [Function.comp_apply, hname]
    split <;> rfl

theorem structureIssues_bare : tx.bare.structureIssues = tx.structureIssues.map Issue.bare := by
  have hactors : tx.bare.actors.isEmpty = tx.actors.isEmpty := List.isEmpty_map
  have hmessages : tx.bare.messages.isEmpty = tx.messages.isEmpty := List.isEmpty_map
  simp only [structureIssues, flowIssues_bare, List.map_append, hactors, hmessages]
  congr 2 <;> split <;> rfl

theorem arityIssues_bare : tx.bare.arityIssues = tx.arityIssues.map Issue.bare := by
  unfold arityIssues
  rw [statements_bare, List.filterMap_map, List.map_filterMap]
  congr 1
  funext s
  obtain ⟨action, guard, span⟩ := s
  cases action with
  | call ref args =>
    have hname : ref.bare.name = ref.name := rfl
    simp only [Function.comp_apply, Statement.bare, Action.bare, function?_bare, hname]
    cases tx.function? ref.name with
    | none => rfl
    | some f =>
      simp only [Option.map_some, Option.bind_some, Function.bare, List.length_map]
      split <;> rfl
  | _ => rfl

theorem typeIssues_bare : tx.bare.typeIssues = tx.typeIssues.map Issue.bare := by
  have htypes : tx.bare.types = tx.types.map TypeExpr.bare := by
    simp only [types, bare, List.flatMap_map, List.map_append, List.map_flatMap, List.map_map, Message.bare, Function.bare,
      List.map_cons, List.map_nil]
    rfl
  rw [typeIssues, htypes, List.flatMap_map, typeIssues, List.map_flatMap]
  congr 1
  funext type
  exact type.issues_bare

/-- The issues of a transaction do not depend on its spans, but for the places they name. -/
theorem issues_bare : tx.bare.issues = tx.issues.map Issue.bare := by
  simp only [issues, duplicateIssues_bare, referenceIssues_bare, structureIssues_bare, arityIssues_bare, typeIssues_bare,
    List.map_append]

theorem styleIssues_bare : tx.bare.styleIssues = tx.styleIssues.map StyleIssue.bare := by
  have hnames : tx.bare.declaredNames = tx.declaredNames.map fun x => (x.1, x.2.1, .nowhere) := by
    simp only [declaredNames, bare, List.map_append, List.map_map, List.map_flatMap, List.flatMap_map, List.map_cons,
      Function.comp_def, Message.bare, Function.bare]
    rfl
  have htargets : ∀ category, tx.bare.targetsOf category = tx.targetsOf category := by
    intro category
    simp only [targetsOf, statements_bare, List.filter_map, List.map_map, Function.comp_def, Statement.bare,
      Action.targetCategory_bare, Action.target_bare, Reference.bare]
  have huses : tx.bare.expectedUses = tx.expectedUses.map bareDeclaration := by
    simp only [expectedUses, hasTransitions_bare]
    simp only [bare, List.map_append, List.map_map, List.filter_map, Function.comp_def]
    congr 2
    split
    · rw [List.map_map]
      rfl
    · rfl
  simp only [styleIssues, namingIssues, unusedIssues, hnames, huses, List.filterMap_map, List.map_append, List.map_filterMap]
  congr 2
  · funext x
    simp only [Function.comp_apply]
    split <;> rfl
  · funext d
    have hname : (bareDeclaration d).name = d.name := by cases d <;> rfl
    have hcategory : (bareDeclaration d).category = d.category := by cases d <;> rfl
    simp only [Function.comp_apply, htargets, hname, hcategory]
    split
    · rfl
    · cases d <;> rfl

end Transaction

/-! ## Diagnostics -/

theorem Diagnostic.ofIssue_bare (symbols : Symbols) (issue : Issue) :
    Diagnostic.ofIssue symbols.bare issue.bare = (Diagnostic.ofIssue symbols issue).bare := by
  obtain ⟨violation, span⟩ := issue
  cases violation with
  | unresolved category name =>
    simp only [ofIssue, Issue.bare, Violation.bare, Symbols.namespaceOf_bare, Namespace.names_bare]
    cases Suggestion.among name (symbols.namespaceOf category).names with
    | none => rfl
    | some s =>
      unfold bare
      simp only
      split <;> rfl
  | _ => rfl

theorem Transaction.diagnostics_bare (tx : Transaction) (issues : List Issue) :
    tx.bare.diagnostics (issues.map Issue.bare) = (tx.diagnostics issues).map Diagnostic.bare := by
  simp only [diagnostics, symbols_bare, styleIssues_bare, List.map_append, List.map_map, Function.comp_def,
    Diagnostic.ofIssue_bare]
  rfl

theorem Schema.issuesAfter_bare (seen : Namespace) (txs : List Transaction) :
    issuesAfter seen.bare (txs.map Transaction.bare) = (issuesAfter seen txs).map fun x => (x.1.bare, x.2.map Issue.bare) := by
  induction txs generalizing seen with
  | nil => rfl
  | cons tx txs ih =>
    have hname : tx.bare.name = tx.name := rfl
    have hspan : tx.bare.span = .nowhere := rfl
    rw [List.map_cons]
    unfold issuesAfter
    rw [hname, hspan, seen.declare_bare tx.name tx.span]
    cases seen.declare tx.name tx.span with
    | ok seen => simp only [Except.mapError, Except.map, ih, List.map_cons, tx.issues_bare]
    | error first =>
      simp only [Except.mapError, Except.map, ih, List.map_cons, tx.issues_bare]
      rfl

/-- The diagnostics of a schema before they are brought in order. -/
def Schema.findings (s : Schema) : List Diagnostic := s.issuesByTransaction.flatMap fun x => x.1.diagnostics x.2

theorem Schema.diagnostics_perm (s : Schema) : s.diagnostics.Perm s.findings := List.mergeSort_perm _ _

theorem Schema.findings_bare (s : Schema) : s.bare.findings = s.findings.map Diagnostic.bare := by
  have hissues : s.bare.issuesByTransaction = s.issuesByTransaction.map fun x => (x.1.bare, x.2.map Issue.bare) :=
    issuesAfter_bare .empty s.transactions
  simp only [findings, hissues, List.flatMap_map, List.map_flatMap, Transaction.diagnostics_bare]

/-- Schemas of one structure have the same diagnostics, up to places and their order. -/
theorem Schema.diagnostics_of_bare_eq {s s' : Schema} (h : s.bare = s'.bare) :
    (s.diagnostics.map Diagnostic.bare).Perm (s'.diagnostics.map Diagnostic.bare) := by
  have hfindings : s.findings.map Diagnostic.bare = s'.findings.map Diagnostic.bare := by
    rw [← findings_bare, ← findings_bare, h]
  exact (s.diagnostics_perm.map _).trans (.trans (.of_eq hfindings) (s'.diagnostics_perm.symm.map _))

end Parley
