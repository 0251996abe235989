/-
The warnings about the flow of control. The search for blocks comes to its end, finds just the blocks
that a chain of `goto` leads to, and each other block gets one warning; if no statement is a `goto`
or no block is an entry block, there are no warnings.
-/
import Parley.Proofs.Analysis.Report
import Mathlib.Data.List.Permutation

namespace Parley

def warningsOf (issues : List Issue) : List Issue := issues.filter fun issue => !issue.isError

theorem OnePer.forall_mem {σ : Type} {rule : σ → Issue → Prop} {places : List σ} {issues : List Issue} {p : Issue → Prop}
    (h : OnePer rule places issues) (hrule : ∀ place issue, rule place issue → p issue) : ∀ issue ∈ issues, p issue := by
  induction h with
  | done => exact nofun
  | broken hbroken _ ih => exact List.forall_mem_cons.2 ⟨hrule _ _ hbroken, ih⟩
  | kept _ _ ih => exact ih

namespace Transaction

variable {tx : Transaction} {issues : List Issue}

/-- Control flow can be followed: some statement is a `goto`, and some block is an entry block. -/
def Flows (tx : Transaction) : Prop := tx.UsesGoto ∧ ∃ b ∈ tx.blocks, b.entry = true

/-- Where control flow can be followed, all its flaws are warnings. -/
theorem FlowFlaws.warnings (h : tx.FlowFlaws issues) (hflows : tx.Flows) :
    OnePer tx.OutOfReach tx.blocks (warningsOf issues) := by
  obtain ⟨hgoto, b, hb, hentry⟩ := hflows
  cases h with
  | straight hstraight => exact absurd hgoto hstraight
  | noEntry _ hnone => exact absurd hentry (by simp [hnone b hb])
  | blocks _ _ hblocks =>
    have hwarning : ∀ issue ∈ issues, issue.isError = false := hblocks.forall_mem fun block issue hout => hout.2 ▸ rfl
    rwa [warningsOf, List.filter_eq_self.2 fun issue hissue => by simp [hwarning issue hissue]]

/-- Where it cannot, no flaw is a warning. -/
theorem FlowFlaws.no_warnings (h : tx.FlowFlaws issues) (hflows : ¬tx.Flows) : warningsOf issues = [] := by
  cases h with
  | straight | noEntry => rfl
  | blocks hgoto hentry _ => exact absurd ⟨hgoto, hentry⟩ hflows

/-- What is missing is an error, so that the warnings of the structure are those of the flow. -/
theorem warningsOf_structureIssues : warningsOf tx.structureIssues = warningsOf tx.flowIssues := by
  have hactor : warningsOf (if tx.actors.isEmpty then [⟨.missingActor tx.name, tx.span⟩] else []) = [] := by
    split <;> rfl
  have hmessage : warningsOf (if tx.messages.isEmpty then [⟨.missingMessage tx.name, tx.span⟩] else []) = [] := by
    split <;> rfl
  unfold structureIssues
  simp only [warningsOf, List.filter_append] at hactor hmessage ⊢
  rw [hactor, hmessage, List.nil_append, List.nil_append]

end Transaction

/-- The search for blocks ends after at most one turn for each entry block and each `goto`. It finds a name just if an
entry block has it or a chain of `goto` leads to it from an entry block, and the structure of a transaction has one
warning for each block whose name is not found, in the order of the blocks; but none if no statement is a `goto` or no
block is an entry block. -/
theorem reachability_exact (tx : Transaction) :
    (∃ turns ≤ tx.gotoEdges.length + tx.entryNames.length,
      (Search.turn tx.gotoEdges)^[turns] (.start tx.entryNames) = ⟨tx.reachable, []⟩) ∧
    (∀ name, name ∈ tx.reachable ↔
      ∃ start ∈ tx.blocks, start.entry = true ∧ Relation.ReflTransGen tx.GotoEdge start.name name) ∧
    (tx.Flows → OnePer tx.OutOfReach tx.blocks (warningsOf tx.structureIssues)) ∧
    (¬tx.Flows → warningsOf tx.structureIssues = []) := by
  have hflow : tx.FlowFlaws tx.flowIssues := Transaction.flow_iff.2 rfl
  refine ⟨?_, fun name => Transaction.reached_iff, fun h => ?_, fun h => ?_⟩
  · obtain ⟨turns, hle, hturns⟩ := Search.exists_turns tx.gotoEdges (.start tx.entryNames)
    exact ⟨turns, by simpa [Search.remaining, Search.start] using hle, hturns⟩
  · rw [Transaction.warningsOf_structureIssues]
    exact hflow.warnings h
  · rw [Transaction.warningsOf_structureIssues]
    exact hflow.no_warnings h

/-- A block that goes to itself and to the entry block and to no block at all; one with its name, from which control goes
on; and one that is only reached from itself. -/
def loops : Transaction :=
  let goto (name : String) : Statement := ⟨.goto ⟨name, .nowhere⟩, none, .nowhere⟩
  let block (name : String) (entry : Bool) (targets : List String) : Block := ⟨name, entry, targets.map goto, .nowhere⟩
  { name := "Loops"
    description := none
    actors := []
    messages := []
    blocks :=
      [block "Start" true ["Offer", "Offer"], block "Offer" false ["Offer", "Start", "Nowhere"],
        block "Offer" false ["Paid"], block "Paid" false [], block "Lost" false ["Lost", "Paid"]]
    functions := []
    span := .nowhere }

/-- A chain leads to a name that no block has, but not to the block that is only reached from itself. -/
theorem reachability_of_loops :
    loops.Flows ∧ loops.reachable = ["Nowhere", "Paid", "Offer", "Start"] ∧
      (∃ turns ≤ 9, (Search.turn loops.gotoEdges)^[turns] (.start loops.entryNames) = ⟨loops.reachable, []⟩) ∧
      (∃ start ∈ loops.blocks, start.entry = true ∧ Relation.ReflTransGen loops.GotoEdge start.name "Nowhere") ∧
      (¬∃ start ∈ loops.blocks, start.entry = true ∧ Relation.ReflTransGen loops.GotoEdge start.name "Lost") ∧
      OnePer loops.OutOfReach loops.blocks (warningsOf loops.structureIssues) ∧
      warningsOf loops.structureIssues = [⟨.unreachable "Lost", .nowhere⟩] := by
  have hfound : loops.reachable = ["Nowhere", "Paid", "Offer", "Start"] := by cbv
  have hflows : loops.Flows :=
    ⟨⟨⟨.goto ⟨"Offer", .nowhere⟩, none, .nowhere⟩, by simp [loops, Transaction.statements], ⟨"Offer", .nowhere⟩, rfl⟩,
      loops.blocks.head (by simp [loops]), List.head_mem _, rfl⟩
  obtain ⟨hturns, hreached, hwarnings, -⟩ := reachability_exact loops
  refine ⟨hflows, hfound, hturns, (hreached "Nowhere").1 ?_, mt (hreached "Lost").2 ?_, hwarnings hflows, by cbv⟩
  · simp [hfound]
  · simp [hfound]

end Parley
