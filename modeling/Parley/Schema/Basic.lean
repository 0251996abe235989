/-
Schemas: transactions between actors, who send each other messages, call functions and move from
block to block. Every declaration and every reference keeps the span it was read from; two schemas
have the same structure when they are equal once all spans are erased (`Schema.bare`).
-/
import Parley.Text.Position

namespace Parley

structure Reference where
  name : String
  span : Span
deriving DecidableEq, Repr

structure TypeExpr where
  name : String
  args : List TypeExpr
  span : Span

inductive Operator
  | and | or | equal | notEqual | less | greater | atMost | atLeast
deriving DecidableEq, Repr

namespace Operator

def spelling : Operator → String
  | and => "&&"
  | or => "||"
  | equal => "=="
  | notEqual => "!="
  | less => "<"
  | greater => ">"
  | atMost => "<="
  | atLeast => ">="

/-- How tightly an operator binds: disjunction least, comparisons most. -/
def precedence : Operator → Nat
  | or => 1
  | and => 2
  | _ => 3

/-- Comparisons do not chain. -/
def isComparison (op : Operator) : Bool := op.precedence == 3

end Operator

inductive Expr
  /-- Names joined by dots. -/
  | path (segments : List String)
  | integer (value : Int64)
  | string (value : String)
  | boolean (value : Bool)
  | not (inner : Expr)
  | binary (op : Operator) (left right : Expr)
deriving DecidableEq, Repr

inductive Action
  | send (message : Reference)
  | call (function : Reference) (args : List Expr)
  | goto (block : Reference)
deriving DecidableEq, Repr

structure Statement where
  action : Action
  guard : Option Expr
  span : Span
deriving DecidableEq, Repr

structure Actor where
  name : String
  role : Option String
  span : Span
deriving DecidableEq, Repr

structure Field where
  name : String
  type : TypeExpr
  span : Span

structure Message where
  name : String
  sender : Reference
  receiver : Reference
  fields : List Field
  span : Span

structure Param where
  name : String
  type : TypeExpr
  span : Span

structure Function where
  name : String
  params : List Param
  returns : TypeExpr
  description : Option String
  span : Span

/-- A sequence of statements; a transaction starts in one of its entry blocks. -/
structure Block where
  name : String
  entry : Bool
  statements : List Statement
  span : Span
deriving DecidableEq, Repr

/-- One transaction. Declarations keep their order within each category. -/
structure Transaction where
  name : String
  description : Option String
  actors : List Actor
  messages : List Message
  blocks : List Block
  functions : List Function
  span : Span

structure Schema where
  transactions : List Transaction

/-! ## Categories of declarations -/

/-- The categories of declarations; each has names of its own. -/
inductive Category
  | actor | message | block | function
deriving DecidableEq, Repr

namespace Category

def label : Category → String
  | actor => "actor"
  | message => "message"
  | block => "block"
  | function => "function"

/-- Every category, in the order in which declarations are listed. -/
def all : List Category := [actor, message, block, function]

end Category

inductive Declaration
  | actor (decl : Actor)
  | message (decl : Message)
  | block (decl : Block)
  | function (decl : Function)

namespace Declaration

def name : Declaration → String
  | actor decl => decl.name
  | message decl => decl.name
  | block decl => decl.name
  | function decl => decl.name

def span : Declaration → Span
  | actor decl => decl.span
  | message decl => decl.span
  | block decl => decl.span
  | function decl => decl.span

def category : Declaration → Category
  | actor _ => .actor
  | message _ => .message
  | block _ => .block
  | function _ => .function

end Declaration

namespace Action

/-- The name an action refers to. -/
def target : Action → Reference
  | send message => message
  | call function _ => function
  | goto block => block

/-- The category in which the target of an action is declared. -/
def targetCategory : Action → Category
  | send _ => .message
  | call _ _ => .function
  | goto _ => .block

def gotoTarget? : Action → Option String
  | goto block => some block.name
  | _ => none

end Action

namespace Transaction

/-- All declarations: actors, messages, blocks, functions. -/
def declarations (tx : Transaction) : List Declaration :=
  tx.actors.map .actor ++ tx.messages.map .message ++ tx.blocks.map .block ++
    tx.functions.map .function

def declared (tx : Transaction) (category : Category) : List Declaration :=
  tx.declarations.filter (·.category = category)

def statements (tx : Transaction) : List Statement := tx.blocks.flatMap (·.statements)

def hasTransitions (tx : Transaction) : Bool :=
  tx.statements.any fun s => s.action.gotoTarget?.isSome

end Transaction

/-! ## Structure without spans -/

def Reference.bare (r : Reference) : Reference := { r with span := .nowhere }

mutual

def TypeExpr.bare : TypeExpr → TypeExpr
  | ⟨name, args, _⟩ => ⟨name, TypeExpr.bareAll args, .nowhere⟩

def TypeExpr.bareAll : List TypeExpr → List TypeExpr
  | [] => []
  | type :: types => type.bare :: TypeExpr.bareAll types

end

def Action.bare : Action → Action
  | .send message => .send message.bare
  | .call function args => .call function.bare args
  | .goto block => .goto block.bare

def Statement.bare (s : Statement) : Statement := { s with action := s.action.bare, span := .nowhere }

def Actor.bare (a : Actor) : Actor := { a with span := .nowhere }

def Field.bare (f : Field) : Field := { f with type := f.type.bare, span := .nowhere }

def Message.bare (m : Message) : Message :=
  { m with
    sender := m.sender.bare
    receiver := m.receiver.bare
    fields := m.fields.map Field.bare
    span := .nowhere }

def Param.bare (p : Param) : Param := { p with type := p.type.bare, span := .nowhere }

def Function.bare (f : Function) : Function :=
  { f with params := f.params.map Param.bare, returns := f.returns.bare, span := .nowhere }

def Block.bare (b : Block) : Block :=
  { b with statements := b.statements.map Statement.bare, span := .nowhere }

def Transaction.bare (tx : Transaction) : Transaction :=
  { tx with
    actors := tx.actors.map Actor.bare
    messages := tx.messages.map Message.bare
    blocks := tx.blocks.map Block.bare
    functions := tx.functions.map Function.bare
    span := .nowhere }

def Schema.bare (s : Schema) : Schema := ⟨s.transactions.map Transaction.bare⟩

end Parley
