/-
Edits of a text: replacements of byte ranges, applied all together or not at all. Every range has
to lie in the text and on character boundaries, and no two ranges may overlap or start at the same
byte; the order in which edits are supplied does not matter.
-/
import Parley.Text.Position

namespace Parley

/-- The replacement of the bytes from `start` to `stop` by a text. -/
structure Edit where
  start : Nat
  stop : Nat
  text : String
deriving DecidableEq, Repr

inductive EditError
  /-- An edit starts inside another, or where another starts. -/
  | overlap (offset : Nat)
  /-- A range is reversed, runs past the text or cuts a character. -/
  | outOfBounds (start stop length : Nat)
deriving DecidableEq, Repr

def EditError.message : EditError → String
  | .overlap offset => "replacements overlap at byte " ++ toString offset
  | .outOfBounds start stop length =>
    "replacement " ++ toString start ++ ".." ++ toString stop ++ " does not fit a " ++
      toString length ++ "-byte source"

namespace Edit

/-- Edits are ordered by where they start, then by where they stop. -/
def le (a b : Edit) : Bool :=
  decide (a.start < b.start) || (decide (a.start = b.start) && decide (a.stop ≤ b.stop))

/-- Whether the range of an edit lies in the text and cuts no character. -/
def fits (cs : List Char) (e : Edit) : Bool :=
  decide (e.start ≤ e.stop) && isBoundary cs e.start && isBoundary cs e.stop

/-- The start of the first edit that overlaps the one before it. -/
def firstOverlap? : List Edit → Option Nat
  | a :: b :: rest =>
    if b.start < a.stop ∨ b.start = a.start then some b.start else firstOverlap? (b :: rest)
  | _ => none

/-- A text with the range of an edit replaced. -/
def applyTo (e : Edit) (cs : List Char) : List Char :=
  takeBytes e.start cs ++ e.text.toList ++ dropBytes e.stop cs

/-- Applies all edits, or none if a range does not fit or two overlap. The last range is replaced
first, so that those before it stay where they are. -/
def applyAll (text : String) (edits : List Edit) : Except EditError String :=
  let cs := text.toList
  let sorted := edits.mergeSort le
  match sorted.find? (fun e => !e.fits cs) with
  | some e => .error (.outOfBounds e.start e.stop (byteLength cs))
  | none =>
    match firstOverlap? sorted with
    | some offset => .error (.overlap offset)
    | none => .ok (String.ofList (sorted.foldr applyTo cs))

end Edit

end Parley
