/-
The Markdown description of a transaction: its actors, messages, functions and blocks, with a
numbered list of the statements of each block.
-/
import Parley.Schema.Print
import Parley.Text.Lines

namespace Parley.Markdown

def code (text : String) : String := "`" ++ text ++ "`"

def row (left right : String) : String := "| " ++ left ++ " | " ++ right ++ " |"

/-- The rule between the head of the actor table or a field table and its rows. -/
def rule : String := "|-------|------|"

def actors (actors : List Actor) : List String :=
  ["", "## Actors", "", row "Actor" "Role", rule] ++ actors.map fun a => row a.name (a.role.getD "")

def message (m : Message) : List String :=
  ["", "### " ++ m.name, "", m.sender.name ++ " -> " ++ m.receiver.name] ++
    if m.fields.isEmpty then []
    else ["", row "Field" "Type", rule] ++ m.fields.map fun f => row f.name (code f.type.print)

def function (f : Function) : String :=
  "- " ++
    code (f.name ++ "(" ++ commaSeparated (f.params.map Param.print) ++ ") -> " ++ f.returns.print) ++
    f.description.elim "" (": " ++ ·)

/-- What a statement does; a target block is a link to its heading. -/
def action : Action → String
  | .send message => "send " ++ code message.name
  | .call function args =>
    "call " ++ code (function.name ++ "(" ++ commaSeparated (args.map Expr.print) ++ ")")
  | .goto block => "go to [" ++ block.name ++ "](#" ++ block.name.toLower ++ ")"

def statement (number : Nat) (s : Statement) : String :=
  toString number ++ ". " ++ action s.action ++
    s.guard.elim "" fun e => " when " ++ code e.print

def block (b : Block) : List String :=
  ["", "### " ++ b.name ++ (if b.entry then " (entry)" else ""), ""] ++
    (b.statements.zipIdx 1).map fun (s, number) => statement number s

/-- Sections that are left out if they would be empty. -/
def unlessEmpty {α : Type} (items : List α) (head : List String) (body : List α → List String) :
    List String :=
  if items.isEmpty then [] else head ++ body items

def lines (tx : Transaction) : List String :=
  ["# " ++ tx.name] ++ tx.description.elim [] (fun text => ["", text]) ++ actors tx.actors ++
    ["", "## Messages"] ++ tx.messages.flatMap message ++
    unlessEmpty tx.functions ["", "## Functions", ""] (·.map function) ++
    unlessEmpty tx.blocks ["", "## Blocks"] (·.flatMap block)

def render (tx : Transaction) : String := Lines.unlines (lines tx)

end Parley.Markdown
