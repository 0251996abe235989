/-
Style: names that do not keep the spelling convention of what they name, and declarations that
nothing uses.
-/
import Parley.Schema.Basic
import Parley.Text.Casing

namespace Parley

inductive Named
  | actor | message | field | block | function | parameter
deriving DecidableEq, Repr

namespace Named

def label : Named → String
  | actor => "actor"
  | message => "message"
  | field => "field"
  | block => "block"
  | function => "function"
  | parameter => "parameter"

/-- The convention for a name: actors, messages and blocks are written in upper camel case, the
rest in snake case. -/
def casing : Named → Casing
  | actor | message | block => .upperCamel
  | field | function | parameter => .snake

end Named

inductive StyleFlaw
  /-- A name is not spelled as its convention asks. -/
  | misspelled (what : Named) (name : String)
  /-- A declaration is not used by any statement. -/
  | unused (category : Category) (name : String)
deriving DecidableEq, Repr

def Category.usage : Category → String
  | actor => "used"
  | message => "sent"
  | block => "the target of a goto"
  | function => "called"

def StyleFlaw.message : StyleFlaw → String
  | misspelled what name =>
    what.label ++ " `" ++ name ++ "` should be " ++ what.casing.label ++ " (`" ++
      what.casing.respell name ++ "`)"
  | unused category name => category.label ++ " `" ++ name ++ "` is never " ++ category.usage

structure StyleIssue where
  flaw : StyleFlaw
  span : Span
deriving DecidableEq, Repr

namespace Transaction

/-- Every name that a transaction declares, with what it names: actors, messages with their fields,
blocks, functions with their parameters. -/
def declaredNames (tx : Transaction) : List (Named × String × Span) :=
  tx.actors.map (fun a => (.actor, a.name, a.span)) ++
    tx.messages.flatMap (fun m =>
      (.message, m.name, m.span) :: m.fields.map fun f => (.field, f.name, f.span)) ++
    tx.blocks.map (fun b => (.block, b.name, b.span)) ++
    tx.functions.flatMap fun f =>
      (.function, f.name, f.span) :: f.params.map fun p => (.parameter, p.name, p.span)

def namingIssues (tx : Transaction) : List StyleIssue :=
  tx.declaredNames.filterMap fun (what, name, span) =>
    if what.casing.accepts name then none else some ⟨.misspelled what name, span⟩

def targetsOf (tx : Transaction) (category : Category) : List String :=
  (tx.statements.filter (·.action.targetCategory = category)).map (·.action.target.name)

/-- The declarations that should be used: messages, then blocks that are no entry if there are
transitions at all, then functions. -/
def expectedUses (tx : Transaction) : List Declaration :=
  tx.messages.map .message ++
    (if tx.hasTransitions then (tx.blocks.filter fun b => !b.entry).map .block else []) ++
    tx.functions.map .function

def unusedIssues (tx : Transaction) : List StyleIssue :=
  tx.expectedUses.filterMap fun decl =>
    if (tx.targetsOf decl.category).contains decl.name then none
    else some ⟨.unused decl.category decl.name, decl.span⟩

def styleIssues (tx : Transaction) : List StyleIssue := tx.namingIssues ++ tx.unusedIssues

variable {tx : Transaction} {issue : StyleIssue}

theorem mem_namingIssues_iff : issue ∈ tx.namingIssues ↔
    ∃ x ∈ tx.declaredNames, x.1.casing.accepts x.2.1 = false ∧ issue = ⟨.misspelled x.1 x.2.1, x.2.2⟩ := by
  rw [namingIssues, List.mem_filterMap]
  refine exists_congr fun x => and_congr_right fun _ => ?_
  cases h : x.1.casing.accepts x.2.1 <;> simp [h, eq_comm]

theorem mem_unusedIssues_iff : issue ∈ tx.unusedIssues ↔
    ∃ d ∈ tx.expectedUses, d.name ∉ tx.targetsOf d.category ∧ issue = ⟨.unused d.category d.name, d.span⟩ := by
  rw [unusedIssues, List.mem_filterMap]
  refine exists_congr fun d => and_congr_right fun _ => ?_
  by_cases h : d.name ∈ tx.targetsOf d.category <;> simp [h, eq_comm]

end Transaction

end Parley
