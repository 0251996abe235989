/-
Blocks that no `goto` has for its target, and blocks that no chain of `goto` leads to. The first
warning looks at all statements, the second searches on from the entry blocks; where both are given
they fit together, since only an entry block is reached without a `goto` to it, and whatever goes to
a block out of reach is out of reach itself.
-/
import Parley.Lint.Style
import Parley.Proofs.Analysis.Flow
import Mathlib

namespace Parley

/-- Some statement of the block is a `goto` to a name. -/
def Block.GoesTo (b : Block) (name : String) : Prop := ∃ s ∈ b.statements, ∃ ref, s.action = .goto ref ∧ ref.name = name

namespace Transaction

variable {tx : Transaction} {name : String} {span : Span}

/-! ## One step of control -/

theorem entry_reachable {b : Block} (hb : b ∈ tx.blocks) (hentry : b.entry = true) : b.name ∈ tx.reachable :=
  reached_iff.2 ⟨b, hb, hentry, .refl⟩

theorem goto_reachable {b : Block} (hb : b ∈ tx.blocks) (hreached : b.name ∈ tx.reachable) (hgoto : b.GoesTo name) :
    name ∈ tx.reachable := by
  obtain ⟨start, hstart, hentry, hchain⟩ := reached_iff.1 hreached
  exact reached_iff.2 ⟨start, hstart, hentry, hchain.tail ⟨b, hb, rfl, hgoto⟩⟩

/-- A name that is reached is that of an entry block, or a block that is reached goes to it. -/
theorem reachable_cases (h : name ∈ tx.reachable) :
    (∃ b ∈ tx.blocks, b.entry = true ∧ b.name = name) ∨ ∃ b ∈ tx.blocks, b.name ∈ tx.reachable ∧ b.GoesTo name := by
  obtain ⟨start, hstart, hentry, hchain⟩ := reached_iff.1 h
  rcases hchain.cases_tail with rfl | ⟨_, hbefore, b, hb, rfl, hgoto⟩
  · exact .inl ⟨start, hstart, hentry, rfl⟩
  · exact .inr ⟨b, hb, reached_iff.2 ⟨start, hstart, hentry, hbefore⟩, hgoto⟩

/-! ## The two warnings -/

theorem mem_warningsOf {issues : List Issue} {issue : Issue} :
    issue ∈ warningsOf issues ↔ issue ∈ issues ∧ issue.isError = false := by
  rw [warningsOf, List.mem_filter, Bool.not_eq_true']

/-- A pass whose rule is about errors gives no warnings. -/
theorem no_warnings_of_onePer {σ : Type} {rule : σ → Issue → Prop} {places : List σ} {issues : List Issue}
    (h : OnePer rule places issues) (hrule : ∀ place issue, rule place issue → issue.isError = true) :
    warningsOf issues = [] :=
  List.filter_eq_nil_iff.2 fun issue hissue => by simp [h.forall_mem hrule issue hissue]

/-- Only the flow of control gives warnings. -/
theorem warningsOf_issues : warningsOf tx.issues = warningsOf tx.flowIssues := by
  have happend : ∀ xs ys, warningsOf (xs ++ ys) = warningsOf xs ++ warningsOf ys := fun _ _ => List.filter_append ..
  have hdangling : ∀ category ref issue, tx.Dangling category ref issue → issue.isError = true := by
    rintro category ref _ ⟨-, rfl⟩
    rfl
  have hduplicates : warningsOf tx.duplicateIssues = [] := no_warnings_of_onePer (duplicates_iff.2 rfl) <| by
    rintro place _ ⟨first, -, rfl⟩
    rfl
  have hreferences : warningsOf tx.referenceIssues = [] := by
    rw [referenceIssues_eq, happend, no_warnings_of_onePer (ends_iff.2 rfl) (hdangling _),
      no_warnings_of_onePer (targets_iff.2 rfl) fun _ => hdangling _ _, List.append_nil]
  have harity : warningsOf tx.arityIssues = [] := no_warnings_of_onePer (misfits_iff.2 rfl) <| by
    rintro s _ ⟨ref, args, f, -, -, -, rfl⟩
    rfl
  have htypes : warningsOf tx.typeIssues = [] := no_warnings_of_onePer (types_iff.2 rfl) <| by
    rintro type _ ⟨-, rfl⟩
    rfl
  rw [issues, happend, happend, happend, happend, hduplicates, hreferences, harity, htypes, warningsOf_structureIssues,
    List.append_nil, List.append_nil, List.nil_append, List.nil_append]

theorem warning_mem_issues_iff {issue : Issue} (h : issue.isError = false) : issue ∈ tx.issues ↔ issue ∈ tx.flowIssues := by
  have hwarning : issue ∈ warningsOf tx.issues ↔ issue ∈ warningsOf tx.flowIssues := by rw [warningsOf_issues]
  simpa only [mem_warningsOf, h, and_true] using hwarning

/-- Where control flow can be followed, each block that is not reached has its warning. -/
theorem unreachable_mem_issues_iff (hflows : tx.Flows) :
    ⟨.unreachable name, span⟩ ∈ tx.issues ↔ ∃ b ∈ tx.blocks, b.name ∉ tx.reachable ∧ b.name = name ∧ b.span = span := by
  obtain ⟨hgoto, hentry⟩ := hflows
  rw [usesGoto_iff] at hgoto
  rw [← List.any_eq_true] at hentry
  rw [warning_mem_issues_iff rfl]
  simp only [flowIssues, hgoto, hentry, Bool.not_true, Bool.false_eq_true, if_false, List.mem_filterMap,
    unless_eq_some_iff, List.contains_iff_mem, Issue.mk.injEq, Violation.unreachable.injEq]
  exact exists_congr fun b => and_congr_right fun _ => and_congr_right fun _ => and_congr eq_comm eq_comm

theorem mem_targetsOf_block : name ∈ tx.targetsOf .block ↔ ∃ b ∈ tx.blocks, b.GoesTo name := by
  have hgoto : ∀ s : Statement, (s.action.targetCategory = .block ∧ s.action.target.name = name) ↔
      ∃ ref, s.action = .goto ref ∧ ref.name = name := by
    intro s
    cases s.action with
    | goto block => simp [Action.targetCategory, Action.target]
    | send message => simp [Action.targetCategory]
    | call function args => simp [Action.targetCategory]
  simp only [targetsOf, statements, List.mem_map, List.mem_filter, List.mem_flatMap, decide_eq_true_eq, Block.GoesTo,
    ← hgoto]
  constructor
  · rintro ⟨s, ⟨⟨b, hb, hs⟩, hcategory⟩, hname⟩
    exact ⟨b, hb, s, hs, hcategory, hname⟩
  · rintro ⟨b, hb, s, hs, hcategory, hname⟩
    exact ⟨s, ⟨⟨b, hb, hs⟩, hcategory⟩, hname⟩

/-- Where there are transitions, each block that is no entry and that no block goes to has its warning. -/
theorem unused_mem_styleIssues_iff (hgoto : tx.UsesGoto) : ⟨.unused .block name, span⟩ ∈ tx.styleIssues ↔
    ∃ b ∈ tx.blocks, b.entry = false ∧ (∀ c ∈ tx.blocks, ¬c.GoesTo b.name) ∧ b.name = name ∧ b.span = span := by
  have hnaming : (⟨.unused .block name, span⟩ : StyleIssue) ∉ tx.namingIssues := by
    intro h
    obtain ⟨x, -, -, hx⟩ := mem_namingIssues_iff.1 h
    cases hx
  have huntargeted : ∀ b : Block, (∀ c ∈ tx.blocks, ¬c.GoesTo b.name) ↔ b.name ∉ tx.targetsOf .block := by
    intro b
    simp [mem_targetsOf_block]
  rw [usesGoto_iff] at hgoto
  simp only [styleIssues, List.mem_append, hnaming, false_or, mem_unusedIssues_iff, expectedUses, hgoto, if_true, huntargeted]
  constructor
  · rintro ⟨d, hd, hunused, heq⟩
    rcases hd with (hd | hd) | hd <;> obtain ⟨b, hb, rfl⟩ := List.mem_map.1 hd <;> cases heq
    obtain ⟨hb, hentry⟩ := List.mem_filter.1 hb
    exact ⟨b, hb, by simpa using hentry, hunused, rfl, rfl⟩
  · rintro ⟨b, hb, hentry, hunused, rfl, rfl⟩
    exact ⟨.block b, .inl (.inr (List.mem_map_of_mem (List.mem_filter.2 ⟨hb, by simp [hentry]⟩))), hunused, rfl⟩

end Transaction

/-! ## Together -/

/-- Where block names are distinct and control flow can be followed, a block that is never the target of a `goto` is
reported out of reach as well. If a block is reported out of reach only, then there are blocks that go to it, and
each of them is out of reach and reported so. -/
theorem untargeted_blocks_unreachable {tx : Transaction} (hnames : (tx.blocks.map (·.name)).Nodup) (hflows : tx.Flows)
    (name : String) (span : Span) :
    (⟨.unused .block name, span⟩ ∈ tx.styleIssues → ⟨.unreachable name, span⟩ ∈ tx.issues) ∧
    (⟨.unreachable name, span⟩ ∈ tx.issues → ⟨.unused .block name, span⟩ ∉ tx.styleIssues →
      (∃ c ∈ tx.blocks, c.GoesTo name) ∧
      ∀ c ∈ tx.blocks, c.GoesTo name → c.name ∉ tx.reachable ∧ ⟨.unreachable c.name, c.span⟩ ∈ tx.issues) := by
  rw [Transaction.unused_mem_styleIssues_iff hflows.1]
  constructor
  · rintro ⟨b, hb, hentry, huntargeted, rfl, rfl⟩
    refine (Transaction.unreachable_mem_issues_iff hflows).2 ⟨b, hb, fun hreached => ?_, rfl, rfl⟩
    rcases Transaction.reachable_cases hreached with ⟨c, hc, hcentry, hname⟩ | ⟨c, hc, -, hgoto⟩
    · -- an entry block of this name would be this block
      obtain rfl := List.inj_on_of_nodup_map hnames hc hb hname
      rw [hentry] at hcentry
      cases hcentry
    · exact huntargeted c hc hgoto
  · intro hunreachable hused
    obtain ⟨b, hb, hout, rfl, rfl⟩ := (Transaction.unreachable_mem_issues_iff hflows).1 hunreachable
    have hentry : b.entry = false :=
      Bool.eq_false_of_not_eq_true fun hentry => hout (Transaction.entry_reachable hb hentry)
    refine ⟨?_, fun c hc hgoto => ?_⟩
    · by_contra hnone
      push Not at hnone
      exact hused ⟨b, hb, hentry, hnone, rfl, rfl⟩
    · have hcout : c.name ∉ tx.reachable := fun hreached => hout (Transaction.goto_reachable hc hreached hgoto)
      exact ⟨hcout, (Transaction.unreachable_mem_issues_iff hflows).2 ⟨c, hc, hcout, rfl, rfl⟩⟩

/-- An entry block that goes to itself and to no block at all, two blocks that only go to each other, one that only goes
to itself, and one that goes to the others but that no block goes to. -/
def islands : Transaction :=
  let goto (name : String) : Statement := ⟨.goto ⟨name, .nowhere⟩, none, .nowhere⟩
  let block (name : String) (entry : Bool) (targets : List String) : Block := ⟨name, entry, targets.map goto, .nowhere⟩
  { name := "Islands"
    description := none
    actors := []
    messages := []
    blocks :=
      [block "Start" true ["Start", "Nowhere"], block "Ping" false ["Pong", "Start"], block "Pong" false ["Ping"],
        block "Alone" false ["Alone"], block "Source" false ["Start", "Ping"]]
    functions := []
    span := .nowhere }

/-- One of the two blocks that go to each other, and the block that no block goes to. -/
theorem warnings_of_islands :
    (islands.blocks.map (·.name)).Nodup ∧ islands.Flows ∧
      ⟨.unused .block "Source", .nowhere⟩ ∈ islands.styleIssues ∧ ⟨.unreachable "Source", .nowhere⟩ ∈ islands.issues ∧
      ⟨.unreachable "Ping", .nowhere⟩ ∈ islands.issues ∧ ⟨.unused .block "Ping", .nowhere⟩ ∉ islands.styleIssues ∧
      (∃ c ∈ islands.blocks, c.GoesTo "Ping") ∧
      ∀ c ∈ islands.blocks, c.GoesTo "Ping" →
        c.name ∉ islands.reachable ∧ ⟨.unreachable c.name, c.span⟩ ∈ islands.issues := by
  have hnames : (islands.blocks.map (·.name)).Nodup := by decide
  have hflows : islands.Flows :=
    ⟨⟨⟨.goto ⟨"Nowhere", .nowhere⟩, none, .nowhere⟩, by simp [islands, Transaction.statements], ⟨_, _⟩, rfl⟩,
      islands.blocks.head (by simp [islands]), List.head_mem _, rfl⟩
  have hstyle : islands.styleIssues = [⟨.unused .block "Source", .nowhere⟩] := by cbv
  have hflow : islands.flowIssues =
      ["Ping", "Pong", "Alone", "Source"].map fun name => ⟨.unreachable name, .nowhere⟩ := by cbv
  have hsource : ⟨.unused .block "Source", .nowhere⟩ ∈ islands.styleIssues := by simp [hstyle]
  have hping : ⟨.unreachable "Ping", .nowhere⟩ ∈ islands.issues :=
    (Transaction.warning_mem_issues_iff rfl).2 (by simp [hflow])
  have hused : ⟨.unused .block "Ping", .nowhere⟩ ∉ islands.styleIssues := by simp [hstyle]
  exact ⟨hnames, hflows, hsource, (untargeted_blocks_unreachable hnames hflows _ _).1 hsource, hping, hused,
    (untargeted_blocks_unreachable hnames hflows _ _).2 hping hused⟩

end Parley
