/-
What can be wrong with a transaction. A violation says which rule is broken, an issue also where;
severity, code and wording follow from the violation.
-/
import Parley.Schema.Basic

namespace Parley

/-- Errors make a transaction invalid, warnings do not. -/
inductive Severity
  | error | warning
deriving DecidableEq, Repr

def Severity.label : Severity → String
  | error => "error"
  | warning => "warning"

inductive Repeatable
  | transaction
  | member (category : Category)
deriving DecidableEq, Repr

def Repeatable.label : Repeatable → String
  | transaction => "transaction"
  | member category => category.label

inductive Violation
  /-- A name is declared again where it is taken. -/
  | duplicate (what : Repeatable) (name : String) (first : Span)
  /-- A reference names nothing of the category it needs. -/
  | unresolved (category : Category) (name : String)
  | missingActor (transaction : String)
  | missingMessage (transaction : String)
  /-- Blocks use `goto`, but none of them is an entry block. -/
  | missingEntry (transaction : String)
  /-- No chain of `goto` leads from an entry block to a block. -/
  | unreachable (block : String)
  /-- A call has more or fewer arguments than its function has parameters. -/
  | arity (function : String) (expected actual : Nat)
  | unknownType (name : String)
deriving DecidableEq, Repr

namespace Violation

def code : Violation → String
  | duplicate .. => "E001"
  | unresolved .. => "E002"
  | missingActor _ => "E003"
  | missingMessage _ => "E004"
  | missingEntry _ => "E005"
  | arity .. => "E006"
  | unknownType _ => "E007"
  | unreachable _ => "W001"

/-- Only an unreachable block is a mere warning. -/
def severity : Violation → Severity
  | unreachable _ => .warning
  | _ => .error

def message : Violation → String
  | duplicate what name first =>
    "duplicate " ++ what.label ++ " `" ++ name ++ "` (first declared at " ++ first.place ++ ")"
  | unresolved category name => "unknown " ++ category.label ++ " `" ++ name ++ "`"
  | missingActor tx => "transaction `" ++ tx ++ "` declares no actors"
  | missingMessage tx => "transaction `" ++ tx ++ "` declares no messages"
  | missingEntry tx => "transaction `" ++ tx ++ "` uses goto but has no entry block"
  | unreachable block => "block `" ++ block ++ "` is unreachable from any entry block"
  | arity function expected actual =>
    "function `" ++ function ++ "` takes " ++ toString expected ++ " argument(s) but " ++
      toString actual ++ " were given"
  | unknownType name => "unknown type `" ++ name ++ "`"

end Violation

structure Issue where
  violation : Violation
  span : Span
deriving DecidableEq, Repr

namespace Issue

def isError (issue : Issue) : Bool := issue.violation.severity == .error

def display (issue : Issue) : String :=
  issue.span.place ++ ": " ++ issue.violation.severity.label ++ "[" ++ issue.violation.code ++
    "]: " ++ issue.violation.message

end Issue

end Parley
