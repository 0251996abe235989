/-
Reading a text into tokens. At every place the longest token is taken; white space and comments,
which run from `#` or `//` to the end of the line, are passed over; the first text that starts no
token ends the reading with an error.
-/
import Parley.Text.CharClass
import Parley.Token.Basic

namespace Parley

/-- The first piece of a text that is no token. -/
structure LexError where
  character : Char
  text : String
  span : Span
deriving DecidableEq, Repr

def LexError.summary (e : LexError) : String := "unexpected character " ++ Escaped.ofChar e.character

def LexError.message (e : LexError) : String := e.summary ++ " at " ++ e.span.place

namespace Scan

inductive Piece
  /-- White space or a comment. -/
  | gap
  | token (t : Token)
  /-- No token, and no beginning of one that could be completed. -/
  | junk
deriving DecidableEq, Repr

def isGap (c : Char) : Bool := c == ' ' || c == '\t' || c == '\r' || c == '\n' || c == '\x0c'

def decimal (digits : List Char) : Nat :=
  digits.foldl (fun value d => value * 10 + (d.toNat - '0'.toNat)) 0

/-- The largest integer a text can hold. -/
def maxInteger : Nat := 0x7fffffffffffffff

/-- The token of a word: a keyword if the whole word is one. -/
def wordToken (word : List Char) : Token :=
  match Keyword.ofSpelling? (String.ofList word) with
  | some keyword => .keyword keyword
  | none => .name (String.ofList word)

def restOfLine (cs : List Char) : List Char := cs.takeWhile (· ≠ '\n')

/-- The symbol that a text starts with, the longer of two that fit. -/
def symbol? (c : Char) (cs : List Char) : Option Symbol :=
  match c, cs with
  | '-', '>' :: _ => some .arrow
  | '=', '=' :: _ => some .equal
  | '!', '=' :: _ => some .notEqual
  | '<', '=' :: _ => some .atMost
  | '>', '=' :: _ => some .atLeast
  | '&', '&' :: _ => some .and
  | '|', '|' :: _ => some .or
  | '\x7b', _ => some .openBrace
  | '\x7d', _ => some .closeBrace
  | '(', _ => some .openParen
  | ')', _ => some .closeParen
  | ':', _ => some .colon
  | ',', _ => some .comma
  | ';', _ => some .semicolon
  | '.', _ => some .dot
  | '<', _ => some .less
  | '>', _ => some .greater
  | '!', _ => some .not
  | _, _ => none

/-- The piece of a string literal after its opening mark, and the number of its characters. A
literal that is not closed on its line is junk to the end of the line. -/
def stringPiece (cs : List Char) : Piece × Nat :=
  match Quoted.insideLength cs with
  | none => (.junk, (restOfLine cs).length)
  | some n =>
    match Quoted.decode (cs.take n) with
    -- an unknown escape spoils the literal, its closing mark included
    | none => (.junk, n + 1)
    | some value => (.token (.string (String.ofList value)), n + 1)

/-- The piece that the text `c :: cs` starts with, and how many characters of `cs` belong to
it. -/
def firstPiece (c : Char) (cs : List Char) : Piece × Nat :=
  if isGap c then (.gap, 0)
  else if c = '#' ∨ (c = '/' ∧ cs.head? = some '/') then (.gap, (restOfLine cs).length)
  else if CharClass.startsName c then
    let tail := cs.takeWhile CharClass.continuesName
    (.token (wordToken (c :: tail)), tail.length)
  else if c.isDigit then
    let tail := cs.takeWhile Char.isDigit
    let value := decimal (c :: tail)
    -- a number that is too large is junk as a whole, not up to where it still fits
    (if value ≤ maxInteger then .token (.integer (Int64.ofNat value)) else .junk, tail.length)
  else if c = '\x22' then stringPiece cs
  else match symbol? c cs with
    | some mark => (.token (.symbol mark), mark.spelling.length - 1)
    | none => (.junk, 0)

theorem length_drop_lt (c : Char) (cs : List Char) (n : Nat) : (cs.drop n).length < (c :: cs).length := by
  rw [List.length_drop, List.length_cons]
  omega

def tokensFrom (p : Position) : List Char → Except LexError (List Lexeme)
  | [] => .ok []
  | c :: cs =>
    let (piece, n) := firstPiece c cs
    let taken := c :: cs.take n
    let next := p.after taken
    let span := Span.startingAt p (next.offset - p.offset)
    match piece with
    | .gap => tokensFrom next (cs.drop n)
    | .token t => (tokensFrom next (cs.drop n)).map (⟨t, String.ofList taken, span⟩ :: ·)
    | .junk => .error ⟨c, String.ofList taken, span⟩
termination_by cs => cs.length
decreasing_by all_goals exact length_drop_lt c cs n

end Scan

def tokenize (source : String) : Except LexError (List Lexeme) :=
  Scan.tokensFrom Position.first source.toList

end Parley
