/-
Reading a schema from a text. Reading stops at the first piece that is no token, or else at the
furthest place that some way of reading the tokens reached, with all that could have followed
there.
-/
import Parley.Parser.Grammar
import Parley.Text.LineIndex
import Parley.Token.Scan

namespace Parley

/-- A token that does not fit, or the end of a text that is not complete. -/
structure ParseError where
  span : Span
  /-- What could have come instead, in the order of its descriptions. -/
  expected : List Expectation
  /-- The token at that place; nothing at the end of the text. -/
  found : Option Token
deriving DecidableEq, Repr

def ParseError.summary (e : ParseError) : String :=
  let found := e.found.elim "unexpected end of input" fun t => "unexpected `" ++ t.display ++ "`"
  if e.expected.isEmpty then found
  else found ++ ", expected " ++ ", ".intercalate (e.expected.map Expectation.describe)

def ParseError.message (e : ParseError) : String := e.summary ++ " at " ++ e.span.place

/-- Why a text is not a schema. -/
inductive SyntaxError
  | lex (e : LexError)
  | parse (e : ParseError)
deriving DecidableEq, Repr

namespace SyntaxError

def message : SyntaxError → String
  | lex e => e.message
  | parse e => e.message

def summary : SyntaxError → String
  | lex e => e.summary
  | parse e => e.summary

def span : SyntaxError → Span
  | lex e => e.span
  | parse e => e.span

end SyntaxError

namespace Parser

/-- The error at a mismatch: the lexeme there is found, or nothing at the end, which lies at
`stop`. -/
def errorAt (tokens : List Lexeme) (stop : Span) (m : Option Mismatch) : ParseError :=
  let m := m.getD ⟨0, []⟩
  let expected := Expectation.inOrder m.expected
  match tokens.drop (tokens.length - m.left) with
  | [] => ⟨stop, expected, none⟩
  | l :: _ => ⟨l.span, expected, some l.token⟩

def readAll {α : Type} (p : Parser α) (tokens : List Lexeme) (stop : Span) : Except ParseError α :=
  match p tokens with
  | ⟨some (a, _), _⟩ => .ok a
  | ⟨none, furthest⟩ => .error (errorAt tokens stop furthest)

end Parser

def parseTokens (source : String) (tokens : List Lexeme) : Except ParseError Schema :=
  Grammar.schema.readAll tokens (Span.atEnd source)

def parse (source : String) : Except SyntaxError Schema :=
  match tokenize source with
  | .error e => .error (.lex e)
  | .ok tokens => (parseTokens source tokens).mapError .parse

end Parley
