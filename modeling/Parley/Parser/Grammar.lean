/-
The grammar of schemas: one parser for each construct, from types and expressions to
transactions. Commas after fields, roles and the last parameter and semicolons after statements
may be left out. Disjunction binds least, then conjunction, then negation; a comparison joins two
operands that hold no further operator unless in parentheses.
-/
import Parley.Parser.Basic
import Parley.Schema.Basic

namespace Parley.Grammar

open Parley.Parser

def keyword (word : Keyword) : Parser Unit := token (.keyword word)

def symbol (mark : Symbol) : Parser Unit := token (.symbol mark)

def identifier : Parser (String × Span) :=
  label .identifier <| satisfy .other fun l =>
    match l.token with
    | .name word => some (word, l.span)
    | _ => none

def string : Parser String :=
  label .string <| satisfy .other fun l =>
    match l.token with
    | .string value => some value
    | _ => none

def reference : Parser Reference := (fun (name, span) => ⟨name, span⟩) <$> identifier

def braced {α : Type} (p : Parser α) : Parser α := symbol .openBrace *> p <* symbol .closeBrace

def parenthesized {α : Type} (p : Parser α) : Parser α :=
  symbol .openParen *> p <* symbol .closeParen

def angled {α : Type} (p : Parser α) : Parser α := symbol .less *> p <* symbol .greater

/-- A type: a name, with arguments in angle brackets if it has any. -/
def type : Parser TypeExpr :=
  label .type <| recursive fun type =>
    (fun ((name, args), span) => ⟨name, args.getD [], span⟩) <$>
      located (Prod.mk <$> (Prod.fst <$> identifier) <*>
        optional (angled (sepBy1 type (symbol .comma))))

/-! ## Expressions -/

def literal : Parser Expr :=
  satisfy .other fun l =>
    match l.token with
    | .integer value => some (.integer value)
    | .string value => some (.string value)
    | .keyword .yes => some (.boolean true)
    | .keyword .no => some (.boolean false)
    | _ => none

def path : Parser Expr := .path <$> sepBy1 (Prod.fst <$> identifier) (symbol .dot)

def comparison? : Symbol → Option Operator
  | .equal => some .equal
  | .notEqual => some .notEqual
  | .less => some .less
  | .greater => some .greater
  | .atMost => some .atMost
  | .atLeast => some .atLeast
  | _ => none

def comparisonOp : Parser Operator :=
  satisfy .other fun l =>
    match l.token with
    | .symbol mark => comparison? mark
    | _ => none

/-- What an operator applies to: a literal, a path, or an expression in parentheses. -/
def operand (expr : Parser Expr) : Parser Expr :=
  label .expression (choice [literal, path, parenthesized expr])

def comparison (expr : Parser Expr) : Parser Expr :=
  (fun left rest => rest.elim left fun (op, right) => .binary op left right) <$>
    operand expr <*> optional (Prod.mk <$> comparisonOp <*> operand expr)

/-- A comparison under any number of negations. -/
def negation (expr : Parser Expr) : Parser Expr :=
  (fun marks inner => marks.foldr (fun _ e => .not e) inner) <$>
    many (symbol .not) <*> comparison expr

/-- Items joined by one operator, grouped to the left. -/
def leftGrouped (op : Operator) (mark : Symbol) (item : Parser Expr) : Parser Expr :=
  (fun head tail => tail.foldl (.binary op) head) <$> item <*> many (symbol mark *> item)

def conjunction (expr : Parser Expr) : Parser Expr := leftGrouped .and .and (negation expr)

def disjunction (expr : Parser Expr) : Parser Expr := leftGrouped .or .or (conjunction expr)

def expression : Parser Expr := label .condition (recursive disjunction)

/-! ## Statements and declarations -/

def action : Parser Action :=
  choice
    [.send <$> (keyword .send *> reference),
      .call <$> (keyword .call *> reference) <*> parenthesized (sepBy expression (symbol .comma)),
      .goto <$> (keyword .goto *> reference)]

def statement : Parser Statement :=
  label .statement <|
    (fun ((action, guard), span) => ⟨action, guard, span⟩) <$>
      located (Prod.mk <$> action <*> optional (keyword .when *> expression))

/-- The role of an actor, a string or a single word. -/
def role : Parser String :=
  label .role <|
    keyword .role *> symbol .colon *> orElse string (Prod.fst <$> identifier) <*
      optional (symbol .comma)

def actor : Parser Actor :=
  label .actorDeclaration <|
    (fun (name, span) role => ⟨name, role, span⟩) <$>
      (keyword .actor *> identifier) <*> braced (optional role)

def field : Parser Field :=
  label .field <|
    (fun (name, span) type => ⟨name, type, span⟩) <$> (identifier <* symbol .colon) <*> type

def message : Parser Message :=
  label .messageDeclaration <|
    (fun (name, span) sender receiver fields => ⟨name, sender, receiver, fields, span⟩) <$>
      (keyword .message *> identifier) <*> (reference <* symbol .arrow) <*> reference <*>
      braced (many (field <* optional (symbol .comma)))

def param : Parser Param :=
  label .parameter <|
    (fun (name, span) type => ⟨name, type, span⟩) <$> (identifier <* symbol .colon) <*> type

/-- The type of a function that names none, placed at the name of the function. -/
def unitType (span : Span) : TypeExpr := ⟨"unit", [], span⟩

def function : Parser Function :=
  label .functionDeclaration <|
    (fun (name, span) params returns description =>
        ⟨name, params, returns.getD (unitType span), description, span⟩) <$>
      (keyword .function *> identifier) <*> parenthesized (sepEndBy param (symbol .comma)) <*>
      optional (symbol .arrow *> type) <*> braced (optional string)

def block : Parser Block :=
  label .blockDeclaration <|
    (fun entry (name, span) statements => ⟨name, entry.isSome, statements, span⟩) <$>
      (optional (keyword .entry) <* keyword .block) <*> identifier <*>
      braced (many (statement <* optional (symbol .semicolon)))

def declaration : Parser Declaration :=
  label .declaration <|
    choice [.actor <$> actor, .message <$> message, .function <$> function, .block <$> block]

/-- The opening of a transaction: its name, its span and its description. -/
def header : Parser ((String × Span) × Option String) :=
  label .transaction <|
    Prod.mk <$> (keyword .transaction *> identifier) <*> optional string <* symbol .openBrace

/-- A transaction from its opening and its declarations, sorted by category. -/
def assemble (head : (String × Span) × Option String) (decls : List Declaration) : Transaction where
  name := head.1.1
  description := head.2
  actors := decls.filterMap fun | .actor decl => some decl | _ => none
  messages := decls.filterMap fun | .message decl => some decl | _ => none
  blocks := decls.filterMap fun | .block decl => some decl | _ => none
  functions := decls.filterMap fun | .function decl => some decl | _ => none
  span := head.1.2

def transaction : Parser Transaction :=
  assemble <$> header <*> many declaration <* symbol .closeBrace

def schema : Parser Schema := Schema.mk <$> many1 transaction <* atEnd

/-- A stretch that can be read without the rest of the text: the opening of a transaction or one
declaration, then any closing braces. -/
def chunk : Parser Unit :=
  orElse ((fun _ => ()) <$> header) ((fun _ => ()) <$> declaration) <*
    many (symbol .closeBrace) <* atEnd

end Parley.Grammar
