/-
The canonical text of a schema. Declarations come in groups, actors, messages, functions and
blocks, with a blank line between groups and between transactions; statements and fields take a
line each; an expression has parentheses only where it would be read differently without them.
-/
import Parley.Schema.Basic
import Parley.Text.Quoted

namespace Parley

def indent : String := "    "

def commaSeparated (texts : List String) : String := ", ".intercalate texts

mutual

def TypeExpr.print : TypeExpr → String
  | ⟨name, [], _⟩ => name
  | ⟨name, arg :: args, _⟩ => name ++ "<" ++ arg.print ++ TypeExpr.printRest args ++ ">"

def TypeExpr.printRest : List TypeExpr → String
  | [] => ""
  | type :: types => ", " ++ type.print ++ TypeExpr.printRest types

end

namespace Expr

/-- An expression that needs no parentheses anywhere. -/
def isAtom : Expr → Bool
  | path _ | integer _ | string _ | boolean _ => true
  | not _ | binary _ _ _ => false

/-- The precedence of the outermost operator, if that is a binary one. -/
def precedence? : Expr → Option Nat
  | binary op _ _ => some op.precedence
  | _ => none

/-- Whether the left operand of an operator is written in parentheses: a comparison takes atoms
only, the other operators group to the left. -/
def wrapsLeft (op : Operator) (left : Expr) : Bool :=
  if op.isComparison then !left.isAtom else left.precedence?.any (· < op.precedence)

/-- Whether the right operand of an operator is written in parentheses. -/
def wrapsRight (op : Operator) (right : Expr) : Bool :=
  if op.isComparison then !right.isAtom else right.precedence?.any (· ≤ op.precedence)

/-- Whether the operand of a negation is written in parentheses: a negation reaches over a
comparison, but not over a conjunction or a disjunction. -/
def wrapsNegated (inner : Expr) : Bool := inner.precedence?.any (· < 3)

def parenthesized (wrap : Bool) (text : String) : String :=
  if wrap then "(" ++ text ++ ")" else text

def print : Expr → String
  | path segments => ".".intercalate segments
  | integer value => toString value.toInt
  | string value => Quoted.literal value
  | boolean value => if value then "true" else "false"
  | not inner => "!" ++ parenthesized (wrapsNegated inner) inner.print
  | binary op left right =>
    parenthesized (wrapsLeft op left) left.print ++ " " ++ op.spelling ++ " " ++
      parenthesized (wrapsRight op right) right.print

end Expr

def Action.print : Action → String
  | .send message => "send " ++ message.name
  | .goto block => "goto " ++ block.name
  | .call function args =>
    "call " ++ function.name ++ "(" ++ commaSeparated (args.map Expr.print) ++ ")"

def Statement.print (s : Statement) : String :=
  s.action.print ++ (s.guard.elim "" fun e => " when " ++ e.print)

def Actor.print (a : Actor) : String :=
  indent ++ "actor " ++ a.name ++
    (a.role.elim " \x7b\x7d\n" fun role => " \x7b role: " ++ Quoted.literal role ++ " \x7d\n")

def Field.print (f : Field) : String := indent ++ indent ++ f.name ++ ": " ++ f.type.print ++ ",\n"

/-- Lines between braces, the braces side by side if there are none. -/
def bracedLines (lines : List String) : String :=
  if lines.isEmpty then " \x7b\x7d\n" else " \x7b\n" ++ String.join lines ++ indent ++ "\x7d\n"

def Message.print (m : Message) : String :=
  indent ++ "message " ++ m.name ++ " " ++ m.sender.name ++ " -> " ++ m.receiver.name ++
    bracedLines (m.fields.map Field.print)

def Param.print (p : Param) : String := p.name ++ ": " ++ p.type.print

/-- The lines of a function; the type it returns is always written. -/
def Function.print (f : Function) : String :=
  indent ++ "function " ++ f.name ++ "(" ++ commaSeparated (f.params.map Param.print) ++ ") -> " ++
    f.returns.print ++
    (f.description.elim " \x7b\x7d\n" fun text => " \x7b " ++ Quoted.literal text ++ " \x7d\n")

def Block.print (b : Block) : String :=
  indent ++ (if b.entry then "entry " else "") ++ "block " ++ b.name ++
    bracedLines (b.statements.map fun s => indent ++ indent ++ s.print ++ "\n")

def Transaction.print (tx : Transaction) : String :=
  let groups :=
    [tx.actors.map Actor.print, tx.messages.map Message.print,
      tx.functions.map Function.print, tx.blocks.map Block.print]
  "transaction " ++ tx.name ++ (tx.description.elim "" fun text => " " ++ Quoted.literal text) ++
    " \x7b\n" ++
    "\n".intercalate ((groups.filter fun group => !group.isEmpty).map String.join) ++ "\x7d\n"

def Schema.print (s : Schema) : String := "\n".intercalate (s.transactions.map Transaction.print)

end Parley
