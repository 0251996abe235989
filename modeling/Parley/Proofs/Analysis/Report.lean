/-
What the issues of a transaction are, said without namespaces, lookups and searches. A rule says
which issue a place in the transaction gives, if any; each pass goes over its places in order and
gives one issue for each place that breaks its rule. The list of issues is the passes one after the
other, and nothing else.
-/
import Parley.Analysis.Validation
import Parley.Proofs.Analysis.Repair

namespace Parley

/-! ## Rules and passes -/

section Passes

variable {σ : Type}

/-- One issue for each place that breaks a rule, in the order of the places. -/
inductive OnePer (rule : σ → Issue → Prop) : List σ → List Issue → Prop
  | done : OnePer rule [] []
  | broken {place places issue issues} : rule place issue → OnePer rule places issues →
      OnePer rule (place :: places) (issue :: issues)
  | kept {place places issues} : (∀ issue, ¬rule place issue) → OnePer rule places issues →
      OnePer rule (place :: places) issues

/-- The issue if a condition holds, and no issue if it does not. -/
def IssueIf (condition : Prop) (issue : Issue) (issues : List Issue) : Prop :=
  condition ∧ issues = [issue] ∨ ¬condition ∧ issues = []

/-- A pass that decides at each place which issue it gives is the pass of its rule. -/
theorem onePer_iff {rule : σ → Issue → Prop} {check : σ → Option Issue} {places : List σ} {issues : List Issue}
    (h : ∀ place ∈ places, ∀ issue, check place = some issue ↔ rule place issue) :
    OnePer rule places issues ↔ issues = places.filterMap check := by
  induction places generalizing issues with
  | nil =>
    constructor
    · rintro ⟨⟩
      rfl
    · rintro rfl
      exact .done
  | cons place places ih =>
    have ih {issues} := @ih issues fun place hplace => h place (List.mem_cons_of_mem _ hplace)
    have hplace := h place List.mem_cons_self
    cases hcheck : check place with
    | none =>
      have hkept : ∀ issue, ¬rule place issue := fun issue hrule => by simp [hcheck, ← hplace] at hrule
      rw [List.filterMap_cons_none hcheck]
      constructor
      · rintro (_ | ⟨hrule, -⟩ | ⟨-, hrest⟩)
        · exact absurd hrule (hkept _)
        · exact ih.1 hrest
      · exact fun hissues => .kept hkept (ih.2 hissues)
    | some issue =>
      have hbroken : rule place issue := (hplace issue).1 hcheck
      rw [List.filterMap_cons_some hcheck]
      constructor
      · rintro (_ | ⟨hrule, hrest⟩ | ⟨hkept, -⟩)
        · have hsame := (hplace _).2 hrule
          rw [hcheck, Option.some.injEq] at hsame
          rw [hsame, ih.1 hrest]
        · exact absurd hbroken (hkept issue)
      · rintro rfl
        exact .broken hbroken (ih.2 rfl)

theorem unless_eq_some_iff {condition : Prop} [Decidable condition] {found issue : Issue} :
    (if condition then none else some found) = some issue ↔ ¬condition ∧ issue = found := by
  split
  · rename_i h
    simp only [reduceCtorEq, false_iff, not_and]
    exact fun hnot => absurd h hnot
  · rename_i h
    rw [Option.some.injEq, eq_comm]
    exact ⟨fun hfound => ⟨h, hfound⟩, And.right⟩

theorem issueIf_iff {condition : Prop} [Decidable condition] {issue : Issue} {issues : List Issue} :
    IssueIf condition issue issues ↔ issues = if condition then [issue] else [] := by
  by_cases h : condition <;> simp [IssueIf, h]

/-- The first element of a list with a property. -/
def IsFirst {α : Type} (p : α → Prop) (xs : List α) (a : α) : Prop :=
  ∃ before after, xs = before ++ a :: after ∧ p a ∧ ∀ b ∈ before, ¬p b

theorem find?_eq_some_iff_isFirst {α : Type} {p : α → Bool} {xs : List α} {a : α} :
    xs.find? p = some a ↔ IsFirst (fun b => p b = true) xs a := by
  rw [List.find?_eq_some_iff_append]
  constructor
  · rintro ⟨hp, before, after, rfl, hbefore⟩
    exact ⟨before, after, rfl, hp, fun b hb => by simpa using hbefore b hb⟩
  · rintro ⟨before, after, rfl, hp, hbefore⟩
    exact ⟨hp, before, after, rfl, fun b hb => by simpa using hbefore b hb⟩

/-- The elements of a list, each with all that come before it. -/
def withEarlier {α : Type} (earlier : List α) : List α → List (List α × α)
  | [] => []
  | x :: xs => (earlier, x) :: withEarlier (earlier ++ [x]) xs

end Passes

/-! ## The rules -/

mutual

/-- A type and all types in its arguments, at any depth. -/
def TypeExpr.nodes : TypeExpr → List TypeExpr
  | ⟨name, args, span⟩ => ⟨name, args, span⟩ :: TypeExpr.allNodes args

def TypeExpr.allNodes : List TypeExpr → List TypeExpr
  | [] => []
  | type :: types => type.nodes ++ TypeExpr.allNodes types

end

namespace Transaction

/-- A declaration whose name an earlier one of its category has; the issue carries the first of them. -/
def Redeclared (place : List Declaration × Declaration) (issue : Issue) : Prop :=
  ∃ first, IsFirst (fun d => d.name = place.2.name) place.1 first ∧
    issue = ⟨.duplicate (.member place.2.category) place.2.name first.span, place.2.span⟩

/-- A reference that names no declaration of a category. -/
def Dangling (tx : Transaction) (category : Category) (ref : Reference) (issue : Issue) : Prop :=
  (∀ d ∈ tx.declared category, d.name ≠ ref.name) ∧ issue = ⟨.unresolved category ref.name, ref.span⟩

/-- Some statement is a `goto`. -/
def UsesGoto (tx : Transaction) : Prop := ∃ s ∈ tx.statements, ∃ block, s.action = .goto block

/-- A block of name `a` has a `goto` to `b`. -/
def GotoEdge (tx : Transaction) (a b : String) : Prop :=
  ∃ block ∈ tx.blocks, block.name = a ∧ ∃ s ∈ block.statements, ∃ ref, s.action = .goto ref ∧ ref.name = b

/-- No chain of `goto` leads from an entry block to a block. -/
def OutOfReach (tx : Transaction) (block : Block) (issue : Issue) : Prop :=
  (¬∃ start ∈ tx.blocks, start.entry = true ∧ Relation.ReflTransGen tx.GotoEdge start.name block.name) ∧
    issue = ⟨.unreachable block.name, block.span⟩

/-- A call whose arguments are not as many as the parameters of the first function of its name. -/
def Misfits (tx : Transaction) (s : Statement) (issue : Issue) : Prop :=
  ∃ ref args f, s.action = .call ref args ∧ IsFirst (fun g => g.name = ref.name) tx.functions f ∧
    f.params.length ≠ args.length ∧ issue = ⟨.arity ref.name f.params.length args.length, s.span⟩

def UnknownType (type : TypeExpr) (issue : Issue) : Prop :=
  type.name ∉ knownTypes ∧ issue = ⟨.unknownType type.name, type.span⟩

/-- The types in the fields of messages, and in the parameters and results of functions. -/
def typeNodes (tx : Transaction) : List TypeExpr :=
  (tx.messages.flatMap fun m => m.fields.flatMap fun f => f.type.nodes) ++
    tx.functions.flatMap fun f => (f.params.flatMap fun p => p.type.nodes) ++ f.returns.nodes

/-- The flaws of control flow: without `goto` there is none; with it an entry block may be missing,
or else each block may be out of reach. -/
inductive FlowFlaws (tx : Transaction) : List Issue → Prop
  | straight : ¬tx.UsesGoto → FlowFlaws tx []
  | noEntry : tx.UsesGoto → (∀ b ∈ tx.blocks, b.entry = false) → FlowFlaws tx [⟨.missingEntry tx.name, tx.span⟩]
  | blocks {issues} : tx.UsesGoto → (∃ b ∈ tx.blocks, b.entry = true) → OnePer tx.OutOfReach tx.blocks issues →
      FlowFlaws tx issues

end Transaction

/-- The issues of a transaction by the pass that finds them. -/
structure Report where
  duplicates : List Issue
  ends : List Issue
  targets : List Issue
  actor : List Issue
  message : List Issue
  flow : List Issue
  calls : List Issue
  types : List Issue

namespace Report

/-- All issues, in the order of the passes. -/
def issues (r : Report) : List Issue :=
  r.duplicates ++ (r.ends ++ r.targets) ++ (r.actor ++ r.message ++ r.flow) ++ r.calls ++ r.types

/-- Each pass has found one issue for each place that breaks its rule. -/
structure Exact (r : Report) (tx : Transaction) : Prop where
  duplicates : OnePer Transaction.Redeclared (Category.all.flatMap fun c => withEarlier [] (tx.declared c)) r.duplicates
  ends : OnePer (tx.Dangling .actor) (tx.messages.flatMap fun m => [m.sender, m.receiver]) r.ends
  targets : OnePer (fun s => tx.Dangling s.action.targetCategory s.action.target) tx.statements r.targets
  actor : IssueIf (tx.actors = []) ⟨.missingActor tx.name, tx.span⟩ r.actor
  message : IssueIf (tx.messages = []) ⟨.missingMessage tx.name, tx.span⟩ r.message
  flow : tx.FlowFlaws r.flow
  calls : OnePer tx.Misfits tx.statements r.calls
  types : OnePer Transaction.UnknownType tx.typeNodes r.types

end Report

/-! ## Repeated declarations -/

section Declared

variable {α : Type} (name : α → String) (span : α → Span)

/-- A namespace has for each name the span of the first of the things that have it. -/
def Namespace.Knows (ns : Namespace) (xs : List α) : Prop := ∀ n, ns.first? n = (xs.find? fun x => name x == n).map span

variable {name span} {ns : Namespace} {earlier : List α}

/-- A new name is the first to have itself, and the other names are known as before. -/
theorem Namespace.Knows.append (h : ns.Knows name span earlier) {x : α} (hnew : earlier.find? (name · == name x) = none) :
    (Namespace.mk (ns.names ++ [name x]) ((name x, span x) :: ns.spans)).Knows name span (earlier ++ [x]) := by
  intro n
  have hn := h n
  rw [first?] at hn ⊢
  rw [List.lookup_cons, List.find?_append]
  by_cases heq : name x = n
  · subst heq
    simp [hnew]
  · have hne : (n == name x) = false := by simpa using Ne.symm heq
    simp [hne, hn, heq]

/-- What is declared is taken if something earlier has its name, and the first of that is told. -/
theorem Namespace.Knows.declare (h : ns.Knows name span earlier) (x : α) :
    (∃ first, earlier.find? (name · == name x) = some first ∧ ns.declare (name x) (span x) = .error (span first) ∧
      ns.Knows name span (earlier ++ [x])) ∨
    (earlier.find? (name · == name x) = none ∧
      ∃ ns', ns.declare (name x) (span x) = .ok ns' ∧ ns'.Knows name span (earlier ++ [x])) := by
  have hx := h (name x)
  cases hfind : earlier.find? (name · == name x) with
  | some first =>
    rw [hfind, Option.map_some] at hx
    refine .inl ⟨first, rfl, by rw [Namespace.declare, hx], fun n => ?_⟩
    -- the name is taken, so the first of every name stays the same
    rw [h n, List.find?_append]
    by_cases heq : name x = n
    · rw [← heq, hfind]
      rfl
    · simp [heq]
  | none =>
    rw [hfind, Option.map_none] at hx
    exact .inr ⟨rfl, _, by rw [Namespace.declare, hx], h.append hfind⟩

end Declared

theorem Namespace.repetitions_eq {category : Category} {decls earlier : List Declaration} {ns : Namespace}
    (h : ns.Knows Declaration.name Declaration.span earlier) :
    (ns.declareAll category decls).2 = (withEarlier earlier decls).filterMap fun place =>
      (place.1.find? (·.name == place.2.name)).map fun first => ⟨category, place.2.name, first.span, place.2.span⟩ := by
  induction decls generalizing ns earlier with
  | nil => rfl
  | cons d decls ih =>
    rw [withEarlier, declareAll]
    rcases h.declare d with ⟨first, hfind, hdeclare, hsame⟩ | ⟨hfind, ns', hdeclare, hmore⟩
    · rw [hdeclare, List.filterMap_cons_some (by rw [hfind]; rfl)]
      exact congrArg _ (ih hsame)
    · rw [hdeclare, List.filterMap_cons_none (by rw [hfind]; rfl)]
      exact ih hmore

/-- The issue of a transaction whose name an earlier one has. -/
def Transaction.redeclared? (earlier : List Transaction) (tx : Transaction) : Option Issue :=
  (earlier.find? (·.name == tx.name)).map fun first => ⟨.duplicate .transaction tx.name first.span, tx.span⟩

theorem Schema.issuesAfter_eq {txs earlier : List Transaction} {ns : Namespace}
    (h : ns.Knows Transaction.name Transaction.span earlier) :
    issuesAfter ns txs = (withEarlier earlier txs).map fun place =>
      (place.2, (place.2.redeclared? place.1).toList ++ place.2.issues) := by
  induction txs generalizing ns earlier with
  | nil => rfl
  | cons tx txs ih =>
    rw [withEarlier, issuesAfter, List.map_cons]
    rcases h.declare tx with ⟨first, hfind, hdeclare, hsame⟩ | ⟨hfind, ns', hdeclare, hmore⟩
    · rw [hdeclare, Transaction.redeclared?, hfind]
      exact congrArg _ (ih hsame)
    · rw [hdeclare, Transaction.redeclared?, hfind]
      exact congrArg _ (ih hmore)

theorem map_snd_withEarlier {α : Type} (earlier xs : List α) : (withEarlier earlier xs).map Prod.snd = xs := by
  induction xs generalizing earlier with
  | nil => rfl
  | cons x xs ih => rw [withEarlier, List.map_cons, ih]

theorem exists_split_of_withEarlier {α : Type} {earlier xs : List α} {place : List α × α} (h : place ∈ withEarlier earlier xs) :
    ∃ as bs, xs = as ++ place.2 :: bs ∧ place.1 = earlier ++ as := by
  induction xs generalizing earlier with
  | nil => exact absurd h List.not_mem_nil
  | cons x xs ih =>
    rcases List.mem_cons.1 h with rfl | h
    · exact ⟨[], xs, rfl, (List.append_nil _).symm⟩
    · obtain ⟨as, bs, rfl, hearlier⟩ := ih h
      exact ⟨x :: as, bs, rfl, by rw [hearlier, List.append_assoc, List.singleton_append]⟩

namespace Transaction

variable {tx : Transaction} {issues : List Issue}

/-! ## The passes -/

theorem duplicates_iff :
    OnePer Redeclared (Category.all.flatMap fun c => withEarlier [] (tx.declared c)) issues ↔ issues = tx.duplicateIssues := by
  have hpass : tx.duplicateIssues = (Category.all.flatMap fun c => withEarlier [] (tx.declared c)).filterMap fun place =>
      (place.1.find? (·.name == place.2.name)).map fun first =>
        (⟨.duplicate (.member place.2.category) place.2.name first.span, place.2.span⟩ : Issue) := by
    rw [duplicateIssues, repetitions, List.map_flatMap, List.filterMap_flatMap]
    refine List.flatMap_congr fun category _ => ?_
    have hempty : Namespace.empty.Knows Declaration.name Declaration.span [] := fun _ => rfl
    rw [declareAll, Namespace.repetitions_eq hempty, List.map_filterMap]
    refine List.filterMap_congr fun place hplace => ?_
    obtain ⟨as, bs, hsplit, -⟩ := exists_split_of_withEarlier hplace
    have hmem : place.2 ∈ tx.declared category := by
      rw [hsplit]
      exact List.mem_append_right _ List.mem_cons_self
    have hcategory : place.2.category = category := by simpa using (List.mem_filter.1 hmem).2
    rw [hcategory, Option.map_map]
    rfl
  rw [hpass]
  refine onePer_iff fun place _ issue => ?_
  simp only [Option.map_eq_some_iff, find?_eq_some_iff_isFirst, beq_iff_eq, Redeclared]
  exact exists_congr fun first => and_congr_right fun _ => eq_comm

/-- The issue of a reference to something of a category, if it names nothing of it. -/
def dangling? (tx : Transaction) (category : Category) (ref : Reference) : Option Issue :=
  if tx.symbols.resolves category ref.name then none else some ⟨.unresolved category ref.name, ref.span⟩

theorem dangling?_eq_some_iff {category : Category} {ref : Reference} {issue : Issue} :
    tx.dangling? category ref = some issue ↔ tx.Dangling category ref issue := by
  rw [dangling?, Dangling, unless_eq_some_iff, resolves_iff]
  push Not
  exact Iff.rfl

theorem ends_iff : OnePer (tx.Dangling .actor) (tx.messages.flatMap fun m => [m.sender, m.receiver]) issues ↔
    issues = (tx.messages.flatMap fun m => [m.sender, m.receiver]).filterMap (tx.dangling? .actor) :=
  onePer_iff fun _ _ _ => dangling?_eq_some_iff

theorem targets_iff : OnePer (fun s => tx.Dangling s.action.targetCategory s.action.target) tx.statements issues ↔
    issues = tx.statements.filterMap fun s => tx.dangling? s.action.targetCategory s.action.target :=
  onePer_iff fun _ _ _ => dangling?_eq_some_iff

/-- References are gone over in two passes: the ends of messages, then the targets of statements. -/
theorem referenceIssues_eq : tx.referenceIssues =
    (tx.messages.flatMap fun m => [m.sender, m.receiver]).filterMap (tx.dangling? .actor) ++
      tx.statements.filterMap fun s => tx.dangling? s.action.targetCategory s.action.target := by
  have hpass : tx.referenceIssues = tx.references.filterMap fun x => tx.dangling? x.1 x.2 := rfl
  rw [hpass, references, List.filterMap_append, List.filterMap_map, List.filterMap_flatMap, List.filterMap_flatMap]
  rfl

theorem usesGoto_iff : tx.UsesGoto ↔ tx.hasTransitions = true := by
  simp only [UsesGoto, hasTransitions, List.any_eq_true]
  refine exists_congr fun s => and_congr_right fun _ => ?_
  cases s.action with
  | goto block => simp [Action.gotoTarget?]
  | send message => simp [Action.gotoTarget?]
  | call function args => simp [Action.gotoTarget?]

theorem gotoEdge_iff {a b : String} : tx.GotoEdge a b ↔ (a, b) ∈ tx.gotoEdges := by
  have hgoto : ∀ s : Statement, (∃ ref, s.action = .goto ref ∧ ref.name = b) ↔ s.action.gotoTarget? = some b := by
    intro s
    cases s.action with
    | goto block => simp [Action.gotoTarget?]
    | send message => simp [Action.gotoTarget?]
    | call function args => simp [Action.gotoTarget?]
  simp only [mem_gotoEdges, GotoEdge, hgoto]

theorem reached_iff {name : String} : name ∈ tx.reachable ↔
    ∃ start ∈ tx.blocks, start.entry = true ∧ Relation.ReflTransGen tx.GotoEdge start.name name := by
  have hedges : (fun a b => (a, b) ∈ tx.gotoEdges) = tx.GotoEdge := by
    funext a b
    exact propext gotoEdge_iff.symm
  rw [mem_reachable, hedges]
  constructor
  · rintro ⟨_, hstart, hchain⟩
    obtain ⟨start, hentries, rfl⟩ := List.mem_map.1 hstart
    obtain ⟨hmem, hentry⟩ := List.mem_filter.1 hentries
    exact ⟨start, hmem, hentry, hchain⟩
  · rintro ⟨start, hmem, hentry, hchain⟩
    exact ⟨start.name, List.mem_map_of_mem (List.mem_filter.2 ⟨hmem, hentry⟩), hchain⟩

theorem outOfReach_iff {block : Block} {issue : Issue} :
    (if tx.reachable.contains block.name then none else some ⟨.unreachable block.name, block.span⟩) = some issue ↔
      tx.OutOfReach block issue := by
  rw [unless_eq_some_iff, OutOfReach, List.contains_iff_mem, reached_iff]

theorem flow_iff : tx.FlowFlaws issues ↔ issues = tx.flowIssues := by
  have hblocks : OnePer tx.OutOfReach tx.blocks issues ↔ issues = tx.blocks.filterMap fun b =>
      if tx.reachable.contains b.name then none else some ⟨.unreachable b.name, b.span⟩ :=
    onePer_iff fun _ _ _ => outOfReach_iff
  have hentry : (∃ b ∈ tx.blocks, b.entry = true) ↔ tx.blocks.any (·.entry) = true := List.any_eq_true.symm
  have hnoEntry : (∀ b ∈ tx.blocks, b.entry = false) ↔ ¬tx.blocks.any (·.entry) = true := by
    rw [← hentry]
    simp
  constructor
  · rintro (hstraight | ⟨hgoto, hnone⟩ | ⟨hgoto, hsome, hpass⟩)
    · rw [usesGoto_iff, Bool.not_eq_true] at hstraight
      simp [flowIssues, hstraight]
    · rw [usesGoto_iff] at hgoto
      rw [hnoEntry, Bool.not_eq_true] at hnone
      simp [flowIssues, hgoto, hnone]
    · rw [usesGoto_iff] at hgoto
      rw [hentry] at hsome
      simp only [flowIssues, hgoto, hsome, Bool.not_true, Bool.false_eq_true, if_false]
      exact hblocks.1 hpass
  · rintro rfl
    by_cases hgoto : tx.hasTransitions = true
    · by_cases hany : tx.blocks.any (·.entry) = true
      · refine .blocks (usesGoto_iff.2 hgoto) (hentry.2 hany) (hblocks.2 ?_)
        simp only [flowIssues, hgoto, hany, Bool.not_true, Bool.false_eq_true, if_false]
      · have hnone := hnoEntry.2 hany
        rw [Bool.not_eq_true] at hany
        have hflow : tx.flowIssues = [⟨.missingEntry tx.name, tx.span⟩] := by simp [flowIssues, hgoto, hany]
        rw [hflow]
        exact .noEntry (usesGoto_iff.2 hgoto) hnone
    · have hflow : tx.flowIssues = [] := by simp [flowIssues, hgoto]
      rw [hflow]
      exact .straight fun h => hgoto (usesGoto_iff.1 h)

theorem misfits_iff : OnePer tx.Misfits tx.statements issues ↔ issues = tx.arityIssues := by
  refine onePer_iff fun s _ issue => ?_
  rw [Misfits]
  cases s.action with
  | call ref args =>
    simp only [function?, Option.bind_eq_some_iff, find?_eq_some_iff_isFirst, beq_iff_eq, unless_eq_some_iff, Action.call.injEq]
    constructor
    · rintro ⟨f, hfirst, hmisfit⟩
      exact ⟨ref, args, f, ⟨rfl, rfl⟩, hfirst, hmisfit⟩
    · rintro ⟨_, _, f, ⟨rfl, rfl⟩, hfirst, hmisfit⟩
      exact ⟨f, hfirst, hmisfit⟩
  | send message => simp
  | goto block => simp

mutual

theorem issues_eq_nodes (type : TypeExpr) : type.issues = type.nodes.filterMap fun t =>
    if knownTypes.contains t.name then none else some ⟨.unknownType t.name, t.span⟩ := by
  obtain ⟨name, args, span⟩ := type
  rw [TypeExpr.issues, TypeExpr.nodes, allIssues_eq_nodes args, List.filterMap_cons]
  split <;> simp_all

theorem allIssues_eq_nodes (types : List TypeExpr) : TypeExpr.allIssues types =
    (TypeExpr.allNodes types).filterMap fun t =>
      if knownTypes.contains t.name then none else some ⟨.unknownType t.name, t.span⟩ := by
  cases types with
  | nil => rfl
  | cons type types =>
    rw [TypeExpr.allIssues, TypeExpr.allNodes, List.filterMap_append, issues_eq_nodes type, allIssues_eq_nodes types]

end

theorem types_iff : OnePer UnknownType tx.typeNodes issues ↔ issues = tx.typeIssues := by
  have hpass : tx.typeIssues = tx.typeNodes.filterMap fun t =>
      if knownTypes.contains t.name then none else some ⟨.unknownType t.name, t.span⟩ := by
    simp only [typeIssues, types, typeNodes, List.flatMap_append, List.flatMap_assoc, List.flatMap_map, List.filterMap_append,
      List.filterMap_flatMap, issues_eq_nodes, List.flatMap_cons, List.flatMap_nil, List.append_nil]
  rw [hpass]
  refine onePer_iff fun type _ issue => ?_
  rw [unless_eq_some_iff, UnknownType, List.contains_iff_mem]

end Transaction

/-- The issues of a transaction by pass, as the passes compute them. -/
def Transaction.report (tx : Transaction) : Report where
  duplicates := tx.duplicateIssues
  ends := (tx.messages.flatMap fun m => [m.sender, m.receiver]).filterMap (tx.dangling? .actor)
  targets := tx.statements.filterMap fun s => tx.dangling? s.action.targetCategory s.action.target
  actor := if tx.actors = [] then [⟨.missingActor tx.name, tx.span⟩] else []
  message := if tx.messages = [] then [⟨.missingMessage tx.name, tx.span⟩] else []
  flow := tx.flowIssues
  calls := tx.arityIssues
  types := tx.typeIssues

theorem Transaction.issues_report (tx : Transaction) : tx.report.issues = tx.issues := by
  simp only [Report.issues, report, ← referenceIssues_eq, issues, structureIssues, List.isEmpty_iff]

theorem Report.exact_iff {r : Report} {tx : Transaction} : r.Exact tx ↔ r = tx.report := by
  constructor
  · intro h
    rcases r with ⟨duplicates, ends, targets, actor, message, flow, calls, types⟩
    rw [Transaction.report, mk.injEq]
    exact ⟨Transaction.duplicates_iff.1 h.duplicates, Transaction.ends_iff.1 h.ends, Transaction.targets_iff.1 h.targets,
      issueIf_iff.1 h.actor, issueIf_iff.1 h.message, Transaction.flow_iff.1 h.flow, Transaction.misfits_iff.1 h.calls,
      Transaction.types_iff.1 h.types⟩
  · rintro rfl
    exact ⟨Transaction.duplicates_iff.2 rfl, Transaction.ends_iff.2 rfl, Transaction.targets_iff.2 rfl, issueIf_iff.2 rfl,
      issueIf_iff.2 rfl, Transaction.flow_iff.2 rfl, Transaction.misfits_iff.2 rfl, Transaction.types_iff.2 rfl⟩

/-- The issues of a transaction are one for each place that breaks a rule, each once and in the order
of the passes, and nothing else. -/
theorem issues_exact (tx : Transaction) (issues : List Issue) :
    issues = tx.issues ↔ ∃ r : Report, r.Exact tx ∧ r.issues = issues := by
  constructor
  · rintro rfl
    exact ⟨tx.report, Report.exact_iff.2 rfl, tx.issues_report⟩
  · rintro ⟨r, hr, rfl⟩
    rw [Report.exact_iff.1 hr, tx.issues_report]

end Parley
