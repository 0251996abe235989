/-
The lines of a text. The bytes at which its lines start are collected once and stand in ascending
order, so that the line of a byte is found among them by bisection; its column is counted from the
start of that line.
-/
import Parley.Text.Position

namespace Parley

/-- Where a number is in a list, or where it would have to be put. -/
inductive Sought
  | found (index : Nat)
  | missing (index : Nat)
deriving DecidableEq, Repr

/-- Looks for a number in an ascending list from `low` to `high`, one half after the other. -/
def seek (xs : Array Nat) (x low high : Nat) (inside : high ≤ xs.size) : Sought :=
  if hopen : low < high then
    let middle := (low + high) / 2
    if xs[middle] = x then .found middle
    else if xs[middle] < x then seek xs x (middle + 1) high inside
    else seek xs x low middle (by omega)
  else .missing low
termination_by high - low

/-- The bytes behind the line feeds among some bytes, the first of which is byte `offset`. -/
def startsFrom (offset : Nat) (bytes : List UInt8) : List Nat :=
  ((bytes.zipIdx offset).filter (·.1 = 10)).map (·.2 + 1)

theorem startsFrom_append (offset : Nat) (xs ys : List UInt8) :
    startsFrom offset (xs ++ ys) = startsFrom offset xs ++ startsFrom (offset + xs.length) ys := by
  rw [startsFrom, List.zipIdx_append, List.filter_append, List.map_append]
  rfl

/-- The start of a line lies behind a byte of the text. -/
theorem mem_startsFrom {offset n : Nat} {bytes : List UInt8} (h : n ∈ startsFrom offset bytes) :
    offset < n ∧ n ≤ offset + bytes.length := by
  obtain ⟨⟨byte, i⟩, hi, rfl⟩ := List.mem_map.1 h
  have := List.mem_zipIdx (List.mem_filter.1 hi).1
  dsimp only
  omega

theorem pairwise_startsFrom (offset : Nat) (bytes : List UInt8) : (startsFrom offset bytes).Pairwise (· < ·) := by
  have hindices : ((bytes.zipIdx offset).map (·.2)).Pairwise (· < ·) := by
    rw [List.zipIdx_map_snd]
    exact List.pairwise_lt_range'
  rw [startsFrom, List.pairwise_map]
  exact ((List.pairwise_map.1 hindices).filter _).imp fun h => Nat.add_lt_add_right h 1

/-- A text with the bytes at which its lines start. -/
structure LineIndex where
  source : String
  starts : Array Nat
  first : starts[0]? = some 0
  ascending : starts.toList.Pairwise (· < ·)

namespace LineIndex

def of (source : String) : LineIndex where
  source
  starts := (0 :: startsFrom 0 source.toUTF8.data.toList).toArray
  first := rfl
  ascending := List.pairwise_cons.2 ⟨fun _ h => (mem_startsFrom h).1, pairwise_startsFrom _ _⟩

/-- The line of a byte, from 0. -/
def lineAt (index : LineIndex) (offset : Nat) : Nat :=
  match seek index.starts offset 0 index.starts.size (Nat.le_refl _) with
  | .found line => line
  | .missing line => line - 1

/-- The characters from one byte to another, unless one of these is inside a character. -/
def slice? (index : LineIndex) (start stop : Nat) : Option (List Char) :=
  let cs := index.source.toList
  if isBoundary cs start && isBoundary cs stop && start ≤ stop then
    some (takeBytes (stop - start) (dropBytes start cs))
  else none

/-- The span of the bytes from `start` to `stop`, both moved into the text first. Inside a
character no column is defined, and the distance in bytes from the start of the line takes its
place. -/
def span (index : LineIndex) (start stop : Nat) : Span :=
  let total := byteLength index.source.toList
  let start := min start total
  let stop := min (max stop start) total
  let line := index.lineAt start
  let lineStart := index.starts.getD line 0
  let column := (index.slice? lineStart start).elim (start - lineStart) List.length
  ⟨start, stop - start, line + 1, column + 1⟩

end LineIndex

def Span.ofRange (source : String) (start stop : Nat) : Span := (LineIndex.of source).span start stop

def Span.atEnd (source : String) : Span :=
  let total := byteLength source.toList
  Span.ofRange source total total

@[simp] theorem Span.offset_atEnd (source : String) : (Span.atEnd source).offset = byteLength source.toList :=
  Nat.min_self _

@[simp] theorem Span.length_atEnd (source : String) : (Span.atEnd source).length = 0 := by
  dsimp only [Span.atEnd, Span.ofRange, LineIndex.span, LineIndex.of]
  omega

end Parley
