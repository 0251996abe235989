/-
The grammar of schemas as derivation trees. Each type of trees is one production, written above it;
a tree keeps the lexeme of every terminal, so that it has its sentence as its leaves from left to
right (`lexemes`) and determines the value that is read off it, spans included.
-/
import Parley.Schema.Basic
import Parley.Token.Basic

namespace Parley

/-! ## Terminals -/

/-- A lexeme of a class of tokens, with what distinguishes it within the class. -/
structure Leaf {α : Type} (kind : α → Token) where
  value : α
  lexeme : Lexeme
  holds : lexeme.token = kind value

/-- The leaf of a value, from its text and its place. -/
def Leaf.placed {α : Type} {kind : α → Token} (value : α) (text : String) (span : Span) : Leaf kind :=
  ⟨value, ⟨kind value, text, span⟩, rfl⟩

abbrev KeywordLeaf (word : Keyword) : Type := Leaf fun _ : Unit => .keyword word

abbrev SymbolLeaf (mark : Symbol) : Type := Leaf fun _ : Unit => .symbol mark

abbrev NameLeaf : Type := Leaf .name

abbrev StringLeaf : Type := Leaf .string

abbrev IntegerLeaf : Type := Leaf .integer

/-- `"==" | "!=" | "<" | ">" | "<=" | ">="` -/
inductive Comparison
  | equal | notEqual | less | greater | atMost | atLeast
deriving DecidableEq

namespace Comparison

def symbol : Comparison → Symbol
  | equal => .equal
  | notEqual => .notEqual
  | less => .less
  | greater => .greater
  | atMost => .atMost
  | atLeast => .atLeast

def operator : Comparison → Operator
  | equal => .equal
  | notEqual => .notEqual
  | less => .less
  | greater => .greater
  | atMost => .atMost
  | atLeast => .atLeast

end Comparison

abbrev ComparisonLeaf : Type := Leaf fun c : Comparison => .symbol c.symbol

/-! ## Lists and optional parts -/

/-- `item ("," item)*` -/
structure Separated (τ : Type) where
  first : τ
  more : List (SymbolLeaf .comma × τ)

namespace Separated

variable {τ α : Type}

def lexemes (f : τ → List Lexeme) (s : Separated τ) : List Lexeme :=
  f s.first ++ s.more.flatMap fun x => x.1.lexeme :: f x.2

def values (f : τ → α) (s : Separated τ) : List α := f s.first :: s.more.map fun x => f x.2

end Separated

def optionalLexemes {τ : Type} (f : τ → List Lexeme) : Option τ → List Lexeme
  | none => []
  | some x => f x

def optionalLeaf {α : Type} {kind : α → Token} : Option (Leaf kind) → List Lexeme :=
  optionalLexemes fun leaf => [leaf.lexeme]

/-! ## Types -/

mutual

/-- `type = IDENT ("<" type ("," type)* ">")?` -/
inductive TypeTree
  | plain (name : NameLeaf)
  | applied (name : NameLeaf) (left : SymbolLeaf .less) (first : TypeTree) (more : TypeTrees)
    (right : SymbolLeaf .greater)

/-- `("," type)*` -/
inductive TypeTrees
  | none
  | more (comma : SymbolLeaf .comma) (type : TypeTree) (rest : TypeTrees)

end

mutual

def TypeTree.lexemes : TypeTree → List Lexeme
  | .plain name => [name.lexeme]
  | .applied name left first more right =>
    name.lexeme :: left.lexeme :: (first.lexemes ++ (more.lexemes ++ [right.lexeme]))

def TypeTrees.lexemes : TypeTrees → List Lexeme
  | .none => []
  | .more comma type rest => comma.lexeme :: (type.lexemes ++ rest.lexemes)

end

mutual

/-- A type spans from its name to the bracket that closes its arguments. -/
def TypeTree.type : TypeTree → TypeExpr
  | .plain name => ⟨name.value, [], name.lexeme.span⟩
  | .applied name _ first more right =>
    ⟨name.value, first.type :: more.types, name.lexeme.span.upTo right.lexeme.span⟩

def TypeTrees.types : TypeTrees → List TypeExpr
  | .none => []
  | .more _ type rest => type.type :: rest.types

end

/-! ## Expressions -/

mutual

/-- `operand = path | INT | STRING | "true" | "false" | "(" expr ")"` with
`path = IDENT ("." IDENT)*` -/
inductive OperandTree
  | path (head : NameLeaf) (tail : List (SymbolLeaf .dot × NameLeaf))
  | integer (leaf : IntegerLeaf)
  | string (leaf : StringLeaf)
  | yes (leaf : KeywordLeaf .yes)
  | no (leaf : KeywordLeaf .no)
  | parenthesized (left : SymbolLeaf .openParen) (inner : OrTree) (right : SymbolLeaf .closeParen)

/-- `cmp = operand (("==" | "!=" | "<" | ">" | "<=" | ">=") operand)?` -/
inductive CmpTree
  | operand (only : OperandTree)
  | compared (left : OperandTree) (op : ComparisonLeaf) (right : OperandTree)

/-- `unary = "!" unary | cmp` -/
inductive UnaryTree
  | not (mark : SymbolLeaf .not) (inner : UnaryTree)
  | cmp (inner : CmpTree)

/-- `and = unary ("&&" unary)*` -/
inductive AndTree
  | mk (head : UnaryTree) (tail : AndTail)

/-- `("&&" unary)*` -/
inductive AndTail
  | none
  | more (mark : SymbolLeaf .and) (item : UnaryTree) (rest : AndTail)

/-- `expr = and ("||" and)*` -/
inductive OrTree
  | mk (head : AndTree) (tail : OrTail)

/-- `("||" and)*` -/
inductive OrTail
  | none
  | more (mark : SymbolLeaf .or) (item : AndTree) (rest : OrTail)

end

mutual

def OperandTree.lexemes : OperandTree → List Lexeme
  | .path head tail => head.lexeme :: tail.flatMap fun x => [x.1.lexeme, x.2.lexeme]
  | .integer leaf => [leaf.lexeme]
  | .string leaf => [leaf.lexeme]
  | .yes leaf => [leaf.lexeme]
  | .no leaf => [leaf.lexeme]
  | .parenthesized left inner right => left.lexeme :: (inner.lexemes ++ [right.lexeme])

def CmpTree.lexemes : CmpTree → List Lexeme
  | .operand only => only.lexemes
  | .compared left op right => left.lexemes ++ op.lexeme :: right.lexemes

def UnaryTree.lexemes : UnaryTree → List Lexeme
  | .not mark inner => mark.lexeme :: inner.lexemes
  | .cmp inner => inner.lexemes

def AndTree.lexemes : AndTree → List Lexeme
  | .mk head tail => head.lexemes ++ tail.lexemes

def AndTail.lexemes : AndTail → List Lexeme
  | .none => []
  | .more mark item rest => mark.lexeme :: (item.lexemes ++ rest.lexemes)

def OrTree.lexemes : OrTree → List Lexeme
  | .mk head tail => head.lexemes ++ tail.lexemes

def OrTail.lexemes : OrTail → List Lexeme
  | .none => []
  | .more mark item rest => mark.lexeme :: (item.lexemes ++ rest.lexemes)

end

mutual

def OperandTree.expr : OperandTree → Expr
  | .path head tail => .path (head.value :: tail.map fun x => x.2.value)
  | .integer leaf => .integer leaf.value
  | .string leaf => .string leaf.value
  | .yes _ => .boolean true
  | .no _ => .boolean false
  | .parenthesized _ inner _ => inner.expr

def CmpTree.expr : CmpTree → Expr
  | .operand only => only.expr
  | .compared left op right => .binary op.value.operator left.expr right.expr

def UnaryTree.expr : UnaryTree → Expr
  | .not _ inner => .not inner.expr
  | .cmp inner => inner.expr

def AndTree.expr : AndTree → Expr
  | .mk head tail => tail.onto head.expr

/-- Conjunctions group to the left. -/
def AndTail.onto : AndTail → Expr → Expr
  | .none, e => e
  | .more _ item rest, e => rest.onto (.binary .and e item.expr)

def OrTree.expr : OrTree → Expr
  | .mk head tail => tail.onto head.expr

/-- Disjunctions group to the left. -/
def OrTail.onto : OrTail → Expr → Expr
  | .none, e => e
  | .more _ item rest, e => rest.onto (.binary .or e item.expr)

end

/-! ## Statements -/

/-- The reference that a name stands for. -/
def NameLeaf.reference (name : NameLeaf) : Reference := ⟨name.value, name.lexeme.span⟩

/-- `"send" IDENT | "call" IDENT "(" (expr ("," expr)*)? ")" | "goto" IDENT` -/
inductive ActionTree
  | send (word : KeywordLeaf .send) (target : NameLeaf)
  | call (word : KeywordLeaf .call) (target : NameLeaf) (left : SymbolLeaf .openParen)
    (args : Option (Separated OrTree)) (right : SymbolLeaf .closeParen)
  | goto (word : KeywordLeaf .goto) (target : NameLeaf)

namespace ActionTree

def lexemes : ActionTree → List Lexeme
  | send word target => [word.lexeme, target.lexeme]
  | call word target left args right =>
    word.lexeme :: target.lexeme :: left.lexeme ::
      (optionalLexemes (Separated.lexemes OrTree.lexemes) args ++ [right.lexeme])
  | goto word target => [word.lexeme, target.lexeme]

theorem lexemes_ne_nil (t : ActionTree) : t.lexemes ≠ [] := by
  cases t <;> exact List.cons_ne_nil _ _

def action : ActionTree → Action
  | send _ target => .send target.reference
  | call _ target _ args _ => .call target.reference (args.elim [] (Separated.values OrTree.expr))
  | goto _ target => .goto target.reference

end ActionTree

structure GuardTree where
  word : KeywordLeaf .when
  condition : OrTree

def GuardTree.lexemes (t : GuardTree) : List Lexeme := t.word.lexeme :: t.condition.lexemes

/-- `stmt = (action) ("when" expr)?` -/
structure StatementTree where
  action : ActionTree
  guard : Option GuardTree

namespace StatementTree

def lexemes (t : StatementTree) : List Lexeme := t.action.lexemes ++ optionalLexemes GuardTree.lexemes t.guard

theorem lexemes_ne_nil (t : StatementTree) : t.lexemes ≠ [] :=
  List.append_ne_nil_of_left_ne_nil t.action.lexemes_ne_nil _

/-- A statement spans all its leaves. -/
def statement (t : StatementTree) : Statement where
  action := t.action.action
  guard := t.guard.map fun g => g.condition.expr
  span := (t.lexemes.head?.elim .nowhere (·.span)).upTo (t.lexemes.getLast?.elim .nowhere (·.span))

end StatementTree

/-! ## Declarations -/

inductive RoleValue
  | string (leaf : StringLeaf)
  | name (leaf : NameLeaf)

namespace RoleValue

def lexeme : RoleValue → Lexeme
  | string leaf => leaf.lexeme
  | name leaf => leaf.lexeme

/-- A role may be a single word, which is kept as its text. -/
def text : RoleValue → String
  | string leaf => leaf.value
  | name leaf => leaf.value

end RoleValue

/-- `"role" ":" (STRING | IDENT) ","?` -/
structure RoleTree where
  word : KeywordLeaf .role
  colon : SymbolLeaf .colon
  value : RoleValue
  comma : Option (SymbolLeaf .comma)

def RoleTree.lexemes (t : RoleTree) : List Lexeme :=
  t.word.lexeme :: t.colon.lexeme :: t.value.lexeme :: optionalLeaf t.comma

/-- `actor = "actor" IDENT "{" role? "}"` -/
structure ActorTree where
  word : KeywordLeaf .actor
  name : NameLeaf
  left : SymbolLeaf .openBrace
  role : Option RoleTree
  right : SymbolLeaf .closeBrace

namespace ActorTree

def lexemes (t : ActorTree) : List Lexeme :=
  t.word.lexeme :: t.name.lexeme :: t.left.lexeme :: (optionalLexemes RoleTree.lexemes t.role ++ [t.right.lexeme])

def actor (t : ActorTree) : Actor := ⟨t.name.value, t.role.map fun r => r.value.text, t.name.lexeme.span⟩

end ActorTree

/-- `field = param = IDENT ":" type` -/
structure BindingTree where
  name : NameLeaf
  colon : SymbolLeaf .colon
  type : TypeTree

namespace BindingTree

def lexemes (t : BindingTree) : List Lexeme := t.name.lexeme :: t.colon.lexeme :: t.type.lexemes

def field (t : BindingTree) : Field := ⟨t.name.value, t.type.type, t.name.lexeme.span⟩

def param (t : BindingTree) : Param := ⟨t.name.value, t.type.type, t.name.lexeme.span⟩

end BindingTree

def closedLexemes {τ : Type} {mark : Symbol} (f : τ → List Lexeme) (x : τ × Option (SymbolLeaf mark)) :
    List Lexeme := f x.1 ++ optionalLeaf x.2

/-- `message = "message" IDENT IDENT "->" IDENT "{" (field ","?)* "}"` -/
structure MessageTree where
  word : KeywordLeaf .message
  name : NameLeaf
  sender : NameLeaf
  arrow : SymbolLeaf .arrow
  receiver : NameLeaf
  left : SymbolLeaf .openBrace
  fields : List (BindingTree × Option (SymbolLeaf .comma))
  right : SymbolLeaf .closeBrace

namespace MessageTree

def lexemes (t : MessageTree) : List Lexeme :=
  t.word.lexeme :: t.name.lexeme :: t.sender.lexeme :: t.arrow.lexeme :: t.receiver.lexeme :: t.left.lexeme ::
    (t.fields.flatMap (closedLexemes BindingTree.lexemes) ++ [t.right.lexeme])

def message (t : MessageTree) : Message where
  name := t.name.value
  sender := t.sender.reference
  receiver := t.receiver.reference
  fields := t.fields.map fun x => x.1.field
  span := t.name.lexeme.span

end MessageTree

/-- `param ("," param)* ","?` -/
structure ParamsTree where
  params : Separated BindingTree
  comma : Option (SymbolLeaf .comma)

def ParamsTree.lexemes (t : ParamsTree) : List Lexeme :=
  t.params.lexemes BindingTree.lexemes ++ optionalLeaf t.comma

structure ReturnsTree where
  arrow : SymbolLeaf .arrow
  type : TypeTree

def ReturnsTree.lexemes (t : ReturnsTree) : List Lexeme := t.arrow.lexeme :: t.type.lexemes

/-- `function = "function" IDENT "(" params? ")" ("->" type)? "{" STRING? "}"` -/
structure FunctionTree where
  word : KeywordLeaf .function
  name : NameLeaf
  left : SymbolLeaf .openParen
  params : Option ParamsTree
  right : SymbolLeaf .closeParen
  returns : Option ReturnsTree
  openBrace : SymbolLeaf .openBrace
  description : Option StringLeaf
  closeBrace : SymbolLeaf .closeBrace

namespace FunctionTree

def lexemes (t : FunctionTree) : List Lexeme :=
  t.word.lexeme :: t.name.lexeme :: t.left.lexeme ::
    (optionalLexemes ParamsTree.lexemes t.params ++ t.right.lexeme ::
      (optionalLexemes ReturnsTree.lexemes t.returns ++ t.openBrace.lexeme ::
        (optionalLeaf t.description ++ [t.closeBrace.lexeme])))

/-- A function that names no type returns `unit`. -/
def function (t : FunctionTree) : Function where
  name := t.name.value
  params := t.params.elim [] fun ps => ps.params.values BindingTree.param
  returns := t.returns.elim ⟨"unit", [], t.name.lexeme.span⟩ fun r => r.type.type
  description := t.description.map (·.value)
  span := t.name.lexeme.span

end FunctionTree

/-- `block = "entry"? "block" IDENT "{" (stmt ";"?)* "}"` -/
structure BlockTree where
  entry : Option (KeywordLeaf .entry)
  word : KeywordLeaf .block
  name : NameLeaf
  left : SymbolLeaf .openBrace
  statements : List (StatementTree × Option (SymbolLeaf .semicolon))
  right : SymbolLeaf .closeBrace

namespace BlockTree

def lexemes (t : BlockTree) : List Lexeme :=
  optionalLeaf t.entry ++ t.word.lexeme :: t.name.lexeme :: t.left.lexeme ::
    (t.statements.flatMap (closedLexemes StatementTree.lexemes) ++ [t.right.lexeme])

def block (t : BlockTree) : Block where
  name := t.name.value
  entry := t.entry.isSome
  statements := t.statements.map fun x => x.1.statement
  span := t.name.lexeme.span

end BlockTree

/-- `decl = actor | message | function | block` -/
inductive DeclarationTree
  | actor (tree : ActorTree)
  | message (tree : MessageTree)
  | function (tree : FunctionTree)
  | block (tree : BlockTree)

namespace DeclarationTree

def lexemes : DeclarationTree → List Lexeme
  | actor tree => tree.lexemes
  | message tree => tree.lexemes
  | function tree => tree.lexemes
  | block tree => tree.lexemes

theorem lexemes_ne_nil (t : DeclarationTree) : t.lexemes ≠ [] := by
  rcases t with t | t | t | t
  · exact List.cons_ne_nil _ _
  · exact List.cons_ne_nil _ _
  · exact List.cons_ne_nil _ _
  · exact List.append_ne_nil_of_right_ne_nil _ (List.cons_ne_nil _ _)

def declaration : DeclarationTree → Declaration
  | actor tree => .actor tree.actor
  | message tree => .message tree.message
  | function tree => .function tree.function
  | block tree => .block tree.block

def actor? : DeclarationTree → Option Actor
  | actor tree => some tree.actor
  | _ => none

def message? : DeclarationTree → Option Message
  | message tree => some tree.message
  | _ => none

def function? : DeclarationTree → Option Function
  | function tree => some tree.function
  | _ => none

def block? : DeclarationTree → Option Block
  | block tree => some tree.block
  | _ => none

end DeclarationTree

/-! ## Transactions -/

/-- `"transaction" IDENT STRING? "{"` -/
structure HeaderTree where
  word : KeywordLeaf .transaction
  name : NameLeaf
  description : Option StringLeaf
  left : SymbolLeaf .openBrace

def HeaderTree.lexemes (t : HeaderTree) : List Lexeme :=
  t.word.lexeme :: t.name.lexeme :: (optionalLeaf t.description ++ [t.left.lexeme])

/-- `transaction = "transaction" IDENT STRING? "{" decl* "}"` -/
structure TransactionTree where
  header : HeaderTree
  declarations : List DeclarationTree
  right : SymbolLeaf .closeBrace

namespace TransactionTree

def lexemes (t : TransactionTree) : List Lexeme :=
  t.header.lexemes ++ (t.declarations.flatMap DeclarationTree.lexemes ++ [t.right.lexeme])

theorem lexemes_ne_nil (t : TransactionTree) : t.lexemes ≠ [] :=
  List.append_ne_nil_of_left_ne_nil (List.cons_ne_nil _ _) _

/-- Declarations are sorted by category and keep their order. -/
def transaction (t : TransactionTree) : Transaction where
  name := t.header.name.value
  description := t.header.description.map (·.value)
  actors := t.declarations.filterMap DeclarationTree.actor?
  messages := t.declarations.filterMap DeclarationTree.message?
  blocks := t.declarations.filterMap DeclarationTree.block?
  functions := t.declarations.filterMap DeclarationTree.function?
  span := t.header.name.lexeme.span

end TransactionTree

/-- `schema = transaction+` -/
structure SchemaTree where
  first : TransactionTree
  more : List TransactionTree

namespace SchemaTree

def transactions (t : SchemaTree) : List TransactionTree := t.first :: t.more

def lexemes (t : SchemaTree) : List Lexeme := t.transactions.flatMap TransactionTree.lexemes

def schema (t : SchemaTree) : Schema := ⟨t.transactions.map TransactionTree.transaction⟩

end SchemaTree

end Parley
