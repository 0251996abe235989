/-
Parsers over lexemes. A parser either reads some leading lexemes into a value or fails, and in
both cases reports the furthest mismatch it met on the way, also one in an alternative that it gave
up. Alternatives are tried in order, each from the same place. Repetition goes on while its item
reads something, and a recursive parser may call itself only after it has used up a lexeme, so
every parser ends.
-/
import Parley.Parser.Expectation

namespace Parley

/-- What a parser made of its input. -/
structure Outcome (α : Type) where
  /-- The value read and the lexemes after it; nothing if reading failed. -/
  result : Option (α × List Lexeme)
  /-- The furthest mismatch on the way. -/
  furthest : Option Mismatch

namespace Outcome

def map {α β : Type} (f : α → β) (o : Outcome α) : Outcome β :=
  ⟨o.result.map fun (a, rest) => (f a, rest), o.furthest⟩

def after {α : Type} (earlier : Option Mismatch) (o : Outcome α) : Outcome α :=
  ⟨o.result, Mismatch.join earlier o.furthest⟩

end Outcome

/-- A way to read leading lexemes. -/
def Parser (α : Type) : Type := List Lexeme → Outcome α

namespace Parser

variable {α β : Type}

protected def pure (a : α) : Parser α := fun ts => ⟨some (a, ts), none⟩

protected def seq (f : Parser (α → β)) (p : Unit → Parser α) : Parser β := fun ts =>
  match f ts with
  | ⟨none, furthest⟩ => ⟨none, furthest⟩
  | ⟨some (g, rest), furthest⟩ => ((p () rest).map g).after furthest

instance : Applicative Parser where
  pure := Parser.pure
  map f p := fun ts => (p ts).map f
  seq := Parser.seq

/-- Fails without having looked at anything. -/
protected def fail : Parser α := fun _ => ⟨none, none⟩

/-- Reads one lexeme that `read` accepts. -/
def satisfy (expected : Expectation) (read : Lexeme → Option α) : Parser α
  | [] => ⟨none, some ⟨0, [expected]⟩⟩
  | t :: ts =>
    match read t with
    | some a => ⟨some (a, ts), none⟩
    | none => ⟨none, some ⟨ts.length + 1, [expected]⟩⟩

def token (t : Token) : Parser Unit :=
  satisfy (.token t) fun l => if l.token = t then some () else none

/-- Succeeds where nothing is left. -/
def atEnd : Parser Unit
  | [] => ⟨some ((), []), none⟩
  | t :: ts => ⟨none, some ⟨(t :: ts).length, [.endOfInput]⟩⟩

/-- Reads by the first of two parsers, or else by the second. -/
def orElse (p q : Parser α) : Parser α := fun ts =>
  match p ts with
  | ⟨some x, furthest⟩ => ⟨some x, furthest⟩
  | ⟨none, furthest⟩ => (q ts).after furthest

def choice (ps : List (Parser α)) : Parser α := ps.foldr orElse Parser.fail

def optional (p : Parser α) : Parser (Option α) := orElse (some <$> p) (pure none)

/-- Reads items for as long as there are any, from given lexemes. -/
def manyFrom (p : Parser α) (ts : List Lexeme) : Outcome (List α) :=
  match p ts with
  | ⟨none, furthest⟩ => ⟨some ([], ts), furthest⟩
  | ⟨some (a, rest), furthest⟩ =>
    if rest.length < ts.length then ((manyFrom p rest).map (a :: ·)).after furthest
    else ⟨some ([a], rest), furthest⟩
termination_by ts.length

def many (p : Parser α) : Parser (List α) := manyFrom p

def many1 (p : Parser α) : Parser (List α) := List.cons <$> p <*> many p

def sepBy1 (p : Parser α) (separator : Parser β) : Parser (List α) :=
  List.cons <$> p <*> many (separator *> p)

def sepBy (p : Parser α) (separator : Parser β) : Parser (List α) :=
  orElse (sepBy1 p separator) (pure [])

/-- Reads any number of items with separators between them, and perhaps one after the last. -/
def sepEndBy (p : Parser α) (separator : Parser β) : Parser (List α) :=
  orElse (sepBy1 p separator <* optional separator) (pure [])

/-- Names what a parser reads: a mismatch where it starts is reported by that name. -/
def label (c : Construct) (p : Parser α) : Parser α := fun ts =>
  let o := p ts
  { o with furthest := o.furthest.map fun m =>
      if m.left = ts.length then { m with expected := [.construct c] } else m }

/-- The span from the first to the last of the lexemes of `ts` that `rest` no longer holds. -/
def spanRead (ts rest : List Lexeme) : Span :=
  match ts, (ts.take (ts.length - rest.length)).getLast? with
  | t :: _, some last => t.span.upTo last.span
  | _, _ => .nowhere

/-- Reads a value together with the span of all its lexemes. -/
def located (p : Parser α) : Parser (α × Span) := fun ts =>
  match p ts with
  | ⟨none, furthest⟩ => ⟨none, furthest⟩
  | ⟨some (a, rest), furthest⟩ => ⟨some ((a, spanRead ts rest), rest), furthest⟩

/-- Reads by a parser that may call itself on fewer lexemes, from given lexemes. -/
def recursiveFrom (body : Parser α → Parser α) (ts : List Lexeme) : Outcome α :=
  -- a call that has used up nothing is refused, which bounds the recursion
  body (fun rest => if rest.length < ts.length then recursiveFrom body rest else ⟨none, none⟩) ts
termination_by ts.length

/-- Reads by a parser that may call itself once it has used up a lexeme. -/
def recursive (body : Parser α → Parser α) : Parser α := recursiveFrom body

end Parser

end Parley
