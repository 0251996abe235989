/-
What a parser was looking for where it could not go on. Mismatches are joined so that the one
furthest into the text wins and mismatches at one place add up.
-/
import Parley.Token.Basic

namespace Parley

/-- The parts of a text that have a name of their own in messages. -/
inductive Construct
  | transaction | declaration
  | actorDeclaration | messageDeclaration | functionDeclaration | blockDeclaration
  | role | field | parameter | statement | type | condition | expression | identifier | string
deriving DecidableEq, Repr

def Construct.label : Construct → String
  | transaction => "transaction"
  | declaration => "declaration"
  | actorDeclaration => "actor declaration"
  | messageDeclaration => "message declaration"
  | functionDeclaration => "function declaration"
  | blockDeclaration => "block declaration"
  | role => "role"
  | field => "field"
  | parameter => "parameter"
  | statement => "statement"
  | type => "type"
  | condition => "condition"
  | expression => "expression"
  | identifier => "identifier"
  | string => "string"

inductive Expectation
  /-- This very token. -/
  | token (t : Token)
  /-- The beginning of a construct. -/
  | construct (c : Construct)
  /-- A token of a class without a name. -/
  | other
  | endOfInput
deriving DecidableEq, Repr

def Expectation.describe : Expectation → String
  | token t => "`" ++ t.display ++ "`"
  | construct c => c.label
  | other => "something else"
  | endOfInput => "end of input"

structure Mismatch where
  /-- The lexemes from that place to the end of the input. -/
  left : Nat
  expected : List Expectation
deriving DecidableEq, Repr

/-- The further of two mismatches; at one place, both. -/
def Mismatch.join : Option Mismatch → Option Mismatch → Option Mismatch
  | none, b => b
  | a, none => a
  | some a, some b =>
    if a.left < b.left then some a
    else if b.left < a.left then some b
    else some ⟨a.left, a.expected ++ b.expected⟩

/-- Things expected, without repetition and in the order of their descriptions. -/
def Expectation.inOrder (expected : List Expectation) : List Expectation :=
  expected.eraseDups.mergeSort fun a b => decide (a.describe ≤ b.describe)

end Parley
