/-
The S-expression of a schema: its structure on one line per transaction, without spans, layout or
optional separators.
-/
import Parley.Schema.Basic
import Parley.Text.Quoted

namespace Parley

def sexprList (parts : List String) : String := "(" ++ " ".intercalate parts ++ ")"

mutual

def TypeExpr.sexpr : TypeExpr → String
  | ⟨name, [], _⟩ => name
  | ⟨name, arg :: args, _⟩ => sexprList (name :: arg.sexpr :: TypeExpr.sexprs args)

def TypeExpr.sexprs : List TypeExpr → List String
  | [] => []
  | type :: types => type.sexpr :: TypeExpr.sexprs types

end

def Expr.sexpr : Expr → String
  | .path segments => ".".intercalate segments
  | .integer value => toString value.toInt
  | .string value => Quoted.literal value
  | .boolean value => if value then "true" else "false"
  | .not inner => sexprList ["!", inner.sexpr]
  | .binary op left right => sexprList [op.spelling, left.sexpr, right.sexpr]

/-- The head of a statement: its verb, its target and the arguments of a call. -/
def Action.sexprParts : Action → List String
  | .send message => ["send", message.name]
  | .goto block => ["goto", block.name]
  | .call function args => "call" :: function.name :: args.map Expr.sexpr

/-- A statement with its condition last. -/
def Statement.sexpr (s : Statement) : String :=
  sexprList (s.action.sexprParts ++ (s.guard.elim [] fun e => [sexprList ["when", e.sexpr]]))

def literalPart (text : Option String) : List String := text.elim [] fun t => [Quoted.literal t]

def Actor.sexpr (a : Actor) : String :=
  sexprList (["actor", a.name] ++ (a.role.elim [] fun role => [sexprList ["role", Quoted.literal role]]))

def Message.sexpr (m : Message) : String :=
  sexprList (["message", m.name, m.sender.name, m.receiver.name] ++
    m.fields.map fun f => sexprList ["field", f.name, f.type.sexpr])

/-- A function with its parameters, the type it returns and its description. -/
def Function.sexpr (f : Function) : String :=
  sexprList (["function", f.name] ++
    f.params.map (fun p => sexprList ["param", p.name, p.type.sexpr]) ++
    [sexprList ["returns", f.returns.sexpr]] ++ literalPart f.description)

def Block.sexpr (b : Block) : String :=
  sexprList (["block", b.name] ++ (if b.entry then ["entry"] else []) ++
    b.statements.map Statement.sexpr)

def Declaration.sexpr : Declaration → String
  | .actor decl => decl.sexpr
  | .message decl => decl.sexpr
  | .block decl => decl.sexpr
  | .function decl => decl.sexpr

def Transaction.sexpr (tx : Transaction) : String :=
  sexprList (["transaction", tx.name] ++ literalPart tx.description ++
    tx.declarations.map Declaration.sexpr)

def Schema.sexpr (s : Schema) : String := "\n".intercalate (s.transactions.map Transaction.sexpr)

end Parley
