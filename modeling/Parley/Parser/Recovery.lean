/-
Reading on after an error. The tokens are cut into chunks, each starting with a keyword that opens
a transaction or a declaration. The error that stops strict reading speaks for the chunk it lies
in, or for the chunk before if it lies on a chunk's first token, which then was left unclosed.
Every other chunk is read by itself and may add one error.
-/
import Parley.Parser.Parse

namespace Parley

structure Recovered where
  /-- The schema, if there was no error. -/
  schema : Option Schema
  /-- The errors in the order of the text. -/
  errors : List SyntaxError

namespace Recovery

/-- Whether a chunk starts at a token, given the token before it: `entry block` is not cut. -/
def startsChunk (before t : Token) : Bool :=
  t.opensDeclaration && !(before == .keyword .entry && t == .keyword .block)

/-- Cuts tokens before each one that starts a chunk. -/
def chunks : List Lexeme → List (List Lexeme)
  | [] => []
  | [l] => [[l]]
  | l :: next :: rest =>
    match chunks (next :: rest) with
    | [] => [[l]]
    | chunk :: more =>
      if startsChunk l.token next.token then [l] :: chunk :: more else (l :: chunk) :: more

def startOf (chunk : List Lexeme) : Nat := (chunk.head?.map (·.span.offset)).getD 0

/-- Every chunk with the empty span at its end: the start of the next chunk, or the end of the
source. -/
def withEnds (stop : Span) : List (List Lexeme) → List (List Lexeme × Span)
  | [] => []
  | chunk :: rest =>
    let here := (rest.head?.bind List.head?).elim stop fun l => l.span.atStart
    (chunk, here) :: withEnds stop rest

/-- The chunk that an error at an offset speaks for: the last that starts at or before it, or the
one before that if it starts just there. -/
def chargedChunk (chunks : List (List Lexeme)) (offset : Nat) : Nat :=
  let owner := (chunks.takeWhile fun chunk => decide (startOf chunk ≤ offset)).length - 1
  if 0 < owner ∧ (chunks[owner]?.map startOf) = some offset then owner - 1 else owner

/-- The errors of all chunks but one, each read by itself. -/
def otherErrors (chunks : List (List Lexeme × Span)) (charged : Nat) : List ParseError :=
  chunks.zipIdx.filterMap fun ((chunk, stop), i) =>
    if i = charged then none
    else match Grammar.chunk.readAll chunk stop with
      | .ok _ => none
      | .error e => some e

/-- Keeps the first of neighbouring errors at one offset. -/
def dropRepeated : List ParseError → List ParseError
  | a :: rest =>
    -- only neighbours are compared, so the errors have to be in order
    a :: dropRepeated (rest.dropWhile fun b => b.span.offset == a.span.offset)
  | [] => []
termination_by errors => errors.length
decreasing_by
  have := (List.dropWhile_sublist (fun b => b.span.offset == a.span.offset) (l := rest)).length_le
  simp only [List.length_cons]
  omega

/-- All errors of a token list that strict reading refuses with the error `strict`. -/
def errorsAfter (source : String) (tokens : List Lexeme) (strict : ParseError) : List ParseError :=
  let cut := chunks tokens
  let others := otherErrors (withEnds (Span.atEnd source) cut) (chargedChunk cut strict.span.offset)
  -- the sort is stable, so among errors at one offset the strict one is kept
  dropRepeated ((strict :: others).mergeSort fun a b => decide (a.span.offset ≤ b.span.offset))

end Recovery

/-- Reads a source, collecting every independent error. -/
def recover (source : String) : Recovered :=
  match tokenize source with
  | .error e => ⟨none, [.lex e]⟩
  | .ok tokens =>
    match parseTokens source tokens with
    | .ok schema => ⟨some schema, []⟩
    | .error strict => ⟨none, (Recovery.errorsAfter source tokens strict).map .parse⟩

end Parley
