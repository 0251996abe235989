/-
String literals. Four characters are written with a backslash: the line feed, the tab, the
backslash and the quotation mark; every other character stands for itself. Reading accepts
exactly these escapes.
-/

namespace Parley.Quoted

def escape (c : Char) : List Char :=
  if c = '\n' then ['\\', 'n']
  else if c = '\t' then ['\\', 't']
  else if c = '\\' then ['\\', '\\']
  else if c = '"' then ['\\', '"']
  else [c]

def encode (cs : List Char) : List Char := cs.flatMap escape

def literal (s : String) : String := String.ofList ('"' :: encode s.toList ++ ['"'])

def unescape? : Char → Option Char
  | 'n' => some '\n'
  | 't' => some '\t'
  | '\\' => some '\\'
  | '"' => some '"'
  | _ => none

/-- The text that the inside of a literal stands for; an unknown escape is refused. -/
def decode : List Char → Option (List Char)
  | [] => some []
  | '\\' :: c :: rest => do
    let d ← unescape? c
    let ds ← decode rest
    pure (d :: ds)
  | c :: rest => if c = '\\' then none else (decode rest).map (c :: ·)

/-- How many characters come before the quotation mark that ends a literal: a backslash takes the
next character with it, and neither may run into a line feed. -/
def insideLength : List Char → Option Nat
  | [] => none
  | '"' :: _ => some 0
  | '\n' :: _ => none
  | '\\' :: '\n' :: _ => none
  | '\\' :: _ :: rest => (insideLength rest).map (· + 2)
  | _ :: rest => (insideLength rest).map (· + 1)

end Parley.Quoted
