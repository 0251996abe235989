/-
JSON as it is written in reports: members keep their order, nesting is shown by two spaces, and
characters beyond ASCII stand for themselves.
-/

namespace Parley

inductive Json
  | null
  | number (n : Nat)
  | string (s : String)
  | array (items : List Json)
  | object (members : List (String × Json))

namespace Json

def escape (c : Char) : List Char :=
  if c = '\x22' then ['\\', '\x22']
  else if c = '\\' then ['\\', '\\']
  else if c = '\x08' then ['\\', 'b']
  else if c = '\t' then ['\\', 't']
  else if c = '\n' then ['\\', 'n']
  else if c = '\x0c' then ['\\', 'f']
  else if c = '\r' then ['\\', 'r']
  else if c.toNat < 0x20 then
    '\\' :: 'u' :: (Nat.toDigits 16 c.toNat).leftpad 4 '0'
  else [c]

def quote (s : String) : String :=
  String.ofList ('\x22' :: s.toList.flatMap escape ++ ['\x22'])

def newline (depth : Nat) : String := String.ofList ('\n' :: List.replicate (2 * depth) ' ')

mutual

def print (depth : Nat) : Json → String
  | null => "null"
  | number n => toString n
  | string s => quote s
  | array [] => "[]"
  | array (item :: items) =>
    "[" ++ newline (depth + 1) ++ print (depth + 1) item ++ printItems (depth + 1) items ++
      newline depth ++ "]"
  | object [] => "\x7b\x7d"
  | object ((key, value) :: members) =>
    "\x7b" ++ newline (depth + 1) ++ quote key ++ ": " ++ print (depth + 1) value ++
      printMembers (depth + 1) members ++ newline depth ++ "\x7d"

def printItems (depth : Nat) : List Json → String
  | [] => ""
  | item :: items => "," ++ newline depth ++ print depth item ++ printItems depth items

def printMembers (depth : Nat) : List (String × Json) → String
  | [] => ""
  | (key, value) :: members =>
    "," ++ newline depth ++ quote key ++ ": " ++ print depth value ++ printMembers depth members

end

def ofOption {α : Type} (f : α → Json) (x : Option α) : Json := x.elim null f

end Json

end Parley
