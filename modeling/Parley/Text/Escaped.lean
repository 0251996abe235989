/-
Text shown so that every character can be told: in quotation marks, with control characters,
invisible characters, backslashes and the surrounding mark written as escapes.
-/
import Parley.Text.CharClass

namespace Parley.Escaped

/-- A code point in lower-case hexadecimal, between braces. -/
def codePoint (c : Char) : List Char :=
  '\\' :: 'u' :: '\x7b' :: Nat.toDigits 16 c.toNat ++ ['\x7d']

/-- One character as it stands between two quotation marks `mark`. -/
def char (mark c : Char) : List Char :=
  if c = '\x00' then ['\\', '0']
  else if c = '\t' then ['\\', 't']
  else if c = '\r' then ['\\', 'r']
  else if c = '\n' then ['\\', 'n']
  else if c = '\\' then ['\\', '\\']
  else if c = mark then ['\\', mark]
  else if CharClass.isInvisible c then codePoint c
  else [c]

def between (mark : Char) (cs : List Char) : String :=
  String.ofList (mark :: cs.flatMap (char mark) ++ [mark])

def ofChar (c : Char) : String := between '\x27' [c]

def ofString (s : String) : String := between '\x22' s.toList

end Parley.Escaped
