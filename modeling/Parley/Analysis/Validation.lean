/-
The rules of a transaction: names are declared once in their category; references name something of
the right category; there are actors and messages, an entry block where blocks use `goto`, and no
block out of reach; calls fit their functions; types are known. Each broken rule gives one issue.
-/
import Parley.Analysis.Issue
import Parley.Analysis.Namespace
import Parley.Analysis.Reachability

namespace Parley

def knownTypes : List String :=
  ["bool", "int", "uint", "string", "bytes", "hash", "signature", "pubkey", "address", "amount",
    "timestamp", "duration", "unit", "list", "map", "option"]

mutual

def TypeExpr.issues : TypeExpr → List Issue
  | ⟨name, args, span⟩ =>
    (if knownTypes.contains name then [] else [⟨.unknownType name, span⟩]) ++ TypeExpr.allIssues args

def TypeExpr.allIssues : List TypeExpr → List Issue
  | [] => []
  | type :: types => type.issues ++ TypeExpr.allIssues types

end

namespace Transaction

def duplicateIssues (tx : Transaction) : List Issue :=
  tx.repetitions.map fun r => ⟨.duplicate (.member r.category) r.name r.first, r.again⟩

/-- The references of a transaction with the categories they need: the ends of messages, then the
targets of statements. -/
def references (tx : Transaction) : List (Category × Reference) :=
  tx.messages.flatMap (fun m => [(.actor, m.sender), (.actor, m.receiver)]) ++
    tx.statements.map fun s => (s.action.targetCategory, s.action.target)

def referenceIssues (tx : Transaction) : List Issue :=
  let symbols := tx.symbols
  tx.references.filterMap fun (category, ref) =>
    if symbols.resolves category ref.name then none
    else some ⟨.unresolved category ref.name, ref.span⟩

/-- Blocks out of reach, or a missing entry block, where blocks use `goto`. -/
def flowIssues (tx : Transaction) : List Issue :=
  if !tx.hasTransitions then []
  else if !tx.blocks.any (·.entry) then [⟨.missingEntry tx.name, tx.span⟩]
  else
    let reachable := tx.reachable
    tx.blocks.filterMap fun b =>
      if reachable.contains b.name then none else some ⟨.unreachable b.name, b.span⟩

/-- Missing declarations and flaws of control flow. -/
def structureIssues (tx : Transaction) : List Issue :=
  (if tx.actors.isEmpty then [⟨.missingActor tx.name, tx.span⟩] else []) ++
    (if tx.messages.isEmpty then [⟨.missingMessage tx.name, tx.span⟩] else []) ++ tx.flowIssues

def function? (tx : Transaction) (name : String) : Option Function :=
  tx.functions.find? (·.name == name)

/-- Calls that do not fit the first function of their name. -/
def arityIssues (tx : Transaction) : List Issue :=
  tx.statements.filterMap fun s =>
    match s.action with
    | .call ref args =>
      (tx.function? ref.name).bind fun f =>
        if f.params.length = args.length then none
        else some ⟨.arity ref.name f.params.length args.length, s.span⟩
    | _ => none

/-- The types that a transaction writes: of fields, then of parameters and results. -/
def types (tx : Transaction) : List TypeExpr :=
  tx.messages.flatMap (fun m => m.fields.map (·.type)) ++
    tx.functions.flatMap fun f => f.params.map (·.type) ++ [f.returns]

def typeIssues (tx : Transaction) : List Issue := tx.types.flatMap TypeExpr.issues

def issues (tx : Transaction) : List Issue :=
  tx.duplicateIssues ++ tx.referenceIssues ++ tx.structureIssues ++ tx.arityIssues ++ tx.typeIssues

end Transaction

def errorsOf (issues : List Issue) : List Issue := issues.filter Issue.isError

namespace Schema

/-- Every transaction with its issues; `seen` holds the transactions before. A name that an earlier
transaction has is an issue of the later one. -/
def issuesAfter (seen : Namespace) : List Transaction → List (Transaction × List Issue)
  | [] => []
  | tx :: rest =>
    match seen.declare tx.name tx.span with
    | .ok seen => (tx, tx.issues) :: issuesAfter seen rest
    | .error first =>
      (tx, ⟨.duplicate .transaction tx.name first, tx.span⟩ :: tx.issues) :: issuesAfter seen rest

def issuesByTransaction (s : Schema) : List (Transaction × List Issue) :=
  issuesAfter .empty s.transactions

def issues (s : Schema) : List Issue := s.issuesByTransaction.flatMap Prod.snd

end Schema

end Parley
