/-
The Python stub of a transaction: its actors, a data class for each message, a function to be
written for each function, and its blocks as an enumeration with entry blocks and transitions.
-/
import Parley.Schema.Print
import Parley.Text.Casing
import Parley.Text.Lines

namespace Parley.Stub

def quoted (text : String) : String := "\"" ++ text ++ "\""

def docString (text : String) : String := "\"\"\"" ++ text ++ "\"\"\""

def simpleType : String → String
  | "bool" => "bool"
  | "int" | "uint" | "amount" | "timestamp" | "duration" => "int"
  | "string" | "address" => "str"
  | "bytes" | "hash" | "signature" | "pubkey" => "bytes"
  | "unit" => "None"
  | _ => "object"

/-- A generic Python type; a missing argument may be any object. -/
def genericType? (name : String) (args : List String) : Option String :=
  let first := args.headD "object"
  let second := args.tail.headD "object"
  match name with
  | "list" => some ("List[" ++ first ++ "]")
  | "map" => some ("Dict[" ++ first ++ ", " ++ second ++ "]")
  | "option" => some ("Optional[" ++ first ++ "]")
  | _ => none

mutual

def type : TypeExpr → String
  | ⟨name, args, _⟩ => (genericType? name (types args)).getD (simpleType name)

def types : List TypeExpr → List String
  | [] => []
  | t :: ts => type t :: types ts

end

def member (block : String) : String := (Casing.snake.respell block).toUpper

def memberRef (block : String) : String := "Block." ++ member block

def opening (tx : Transaction) : List String :=
  [docString (tx.name ++ " transaction. Generated from transaction.omt; do not edit.")] ++
    tx.description.elim [] (fun text => ["# " ++ text]) ++
    ["", "from dataclasses import dataclass", "from enum import Enum",
      "from typing import Dict, List, Optional", "",
      "ACTORS = [" ++ commaSeparated (tx.actors.map fun a => quoted a.name) ++ "]"]

def message (m : Message) : List String :=
  ["", "", "@dataclass", "class " ++ m.name ++ ":",
    indent ++ docString (m.sender.name ++ " -> " ++ m.receiver.name)] ++
    (if m.fields.isEmpty then [indent ++ "pass"] else []) ++
    m.fields.map fun f => indent ++ f.name ++ ": " ++ type f.type

def function (f : Function) : List String :=
  let params := f.params.map fun p => p.name ++ ": " ++ type p.type
  ["", "", "def " ++ f.name ++ "(" ++ commaSeparated params ++ ") -> " ++ type f.returns ++ ":"] ++
    f.description.elim [] (fun text => [indent ++ docString text]) ++
    [indent ++ "raise NotImplementedError"]

def transitions (b : Block) : String :=
  let targets := b.statements.filterMap (·.action.gotoTarget?)
  indent ++ memberRef b.name ++ ": [" ++ commaSeparated (targets.map memberRef) ++ "],"

/-- The enumeration of blocks, the entry blocks and the transitions. -/
def blocks (bs : List Block) : List String :=
  if bs.isEmpty then []
  else
    ["", "", "class Block(Enum):"] ++
      bs.map (fun b => indent ++ member b.name ++ " = " ++ quoted b.name) ++
      ["", "", "ENTRY_BLOCKS = [" ++
        commaSeparated ((bs.filter (·.entry)).map fun b => memberRef b.name) ++ "]",
        "", "TRANSITIONS = \x7b"] ++
      bs.map transitions ++ ["\x7d"]

def render (tx : Transaction) : String :=
  Lines.unlines (opening tx ++ tx.messages.flatMap message ++ tx.functions.flatMap function ++
    blocks tx.blocks)

end Parley.Stub
