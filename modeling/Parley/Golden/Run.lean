/-
Running golden cases. An S-expression is compared with white space collapsed, an error message is
searched for the expected fragment, and results are tallied in a summary.
-/
import Parley.Golden.Case
import Parley.Parser.Parse
import Parley.Schema.Sexpr

namespace Parley.Golden

inductive Result
  | pass
  | fail (expected actual : String)
  | skip (reason : String)
deriving DecidableEq, Repr

namespace Result

def isPass (r : Result) : Bool := r == .pass

def isFail : Result → Bool
  | fail .. => true
  | _ => false

end Result

def Expected.isMet (expected : Expected) (outcome : Except SyntaxError Schema) : Bool :=
  match expected, outcome with
  | .sexpr text, .ok schema => Lines.collapse schema.sexpr.toList == Lines.collapse text.toList
  | .errorContaining fragment, .error e => Lines.holds fragment.toList e.message.toList
  | _, _ => false

def Expected.describe : Expected → String
  | sexpr text => text
  | errorContaining fragment => "error containing `" ++ fragment ++ "`"

def describeOutcome : Except SyntaxError Schema → String
  | .ok schema => schema.sexpr
  | .error e => "error: " ++ e.message

def Case.run (c : Case) : Result :=
  match c.skip with
  | some reason => .skip reason
  | none =>
    let outcome := parse c.input
    if c.expected.isMet outcome then .pass
    else .fail c.expected.describe (describeOutcome outcome)

structure Failure where
  name : String
  line : Nat
  expected : String
  actual : String
deriving DecidableEq, Repr

structure Summary where
  passed : Nat
  skipped : List (String × String)
  failures : List Failure
deriving DecidableEq, Repr

namespace Summary

def empty : Summary := ⟨0, [], []⟩

def record (s : Summary) (name : String) (line : Nat) : Result → Summary
  | .pass => { s with passed := s.passed + 1 }
  | .fail expected actual => { s with failures := s.failures ++ [⟨name, line, expected, actual⟩] }
  | .skip reason => { s with skipped := s.skipped ++ [(name, reason)] }

def total (s : Summary) : Nat := s.passed + s.failures.length + s.skipped.length

def allPassed (s : Summary) : Bool := s.failures.isEmpty

def describeFailure (f : Failure) : String :=
  "  FAIL " ++ f.name ++ " (line " ++ toString f.line ++ ")\n    expected: " ++ f.expected ++
    "\n    actual:   " ++ f.actual ++ "\n"

/-- The tally in words: the counts, then skipped and failed cases. -/
def display (s : Summary) : String :=
  "golden cases: " ++ toString s.passed ++ " passed, " ++ toString s.failures.length ++
    " failed, " ++ toString s.skipped.length ++ " skipped\n" ++
    String.join (s.skipped.map fun (name, reason) => "  skip " ++ name ++ ": " ++ reason ++ "\n") ++
    String.join (s.failures.map describeFailure)

end Summary

def run (cases : List Case) : Summary :=
  cases.foldl (fun s c => s.record c.name c.line c.run) .empty

end Parley.Golden
