/-
Diagnostics shown in the source. The line of a diagnostic is printed with its number, the text in
question is underlined, and the message hangs below the middle of it; a stretch over several lines
is bracketed at the left. Tabs reach to the next multiple of four, and every character takes the
columns it takes on a display.
-/
import Parley.Report.Plain
import Parley.Text.CharClass
import Parley.Text.Lines

namespace Parley.Report.Snippet

/-! ## Lines -/

def endsLine (c : Char) : Bool :=
  c == '\n' || c == '\r' || c == '\x0b' || c == '\x0c' || c == '\u0085' || c == '\u2028' ||
    c == '\u2029'

/-- The lines of a text with the characters that end them; a carriage return and a line feed end
one line together. -/
def linesOf : List Char → List (List Char)
  | [] => []
  | '\r' :: '\n' :: rest => ['\r', '\n'] :: linesOf rest
  | c :: rest =>
    if endsLine c then [c] :: linesOf rest
    else match linesOf rest with
      | [] => [[c]]
      | line :: lines => (c :: line) :: lines

structure Line where
  /-- The line, from 0. -/
  index : Nat
  /-- The characters of the source before the line. -/
  start : Nat
  /-- The line with the characters that end it. -/
  text : List Char
deriving Repr

def number (index start : Nat) : List (List Char) → List Line
  | [] => []
  | text :: rest => ⟨index, start, text⟩ :: number (index + 1) (start + text.length) rest

/-- The lines of a source; an empty source has one empty line. -/
def sourceLines (cs : List Char) : List Line :=
  match number 0 0 (linesOf cs) with
  | [] => [⟨0, 0, []⟩]
  | lines => lines

/-- The last line that starts at or before a character. -/
def lineAt (lines : List Line) (position : Nat) : Line :=
  ((lines.takeWhile fun l => decide (l.start ≤ position)).getLast?).getD ⟨0, 0, []⟩

def Line.trimmed (l : Line) : List Char :=
  (l.text.reverse.dropWhile CharClass.isBlank).reverse

/-! ## Columns -/

/-- The columns that the character at index `i` of a line takes. -/
def width (i : Nat) (c : Char) : Nat :=
  if c = '\t' then (i / 4 + 1) * 4 - i
  else if CharClass.isBlank c then 1
  else CharClass.columns c

/-- A character as it is shown: white space as spaces. -/
def shownChar (i : Nat) (c : Char) : List Char :=
  if CharClass.isBlank c then List.replicate (width i c) ' ' else [c]

def Line.shown (l : Line) : String :=
  String.ofList (l.trimmed.zipIdx.flatMap fun (c, i) => shownChar i c)

/-- The widths of the first `n` characters of a line; beyond its text every width is one. -/
def Line.widths (l : Line) (n : Nat) : List Nat :=
  (List.range n).map fun i => (l.trimmed[i]?).elim 1 (width i)

/-- A cell of a given width that starts with one character and goes on with another. -/
def cell (w : Nat) (head fill : Char) : List Char :=
  if w = 0 then [] else head :: List.replicate (w - 1) fill

/-! ## Layout -/

/-- The stretch of a source that a diagnostic marks, in characters. -/
structure Mark where
  start : Nat
  stop : Nat
deriving DecidableEq, Repr

/-- The bytes that a diagnostic marks: at least one, if the source has one there. -/
def byteRange (total : Nat) (span : Span) : Nat × Nat :=
  let stop := min (max span.stop (span.offset + 1)) total
  (min span.offset stop, stop)

def markOf (cs : List Char) (span : Span) : Mark :=
  let (start, stop) := byteRange (byteLength cs) span
  ⟨(takeBytes start cs).length, (takeBytes stop cs).length⟩

/-- The row of underlining below a line: a branch at `middle`, strokes where the mark is. -/
def underline (widths : List Nat) (offset middle : Nat) (mark : Mark) : String :=
  String.ofList <| widths.zipIdx.flatMap fun (w, i) =>
    let inside := decide (mark.start ≤ offset + i) && decide (offset + i < mark.stop)
    let stroke := if inside then '─' else ' '
    cell w (if i = middle then (if inside then '┬' else '│') else stroke) stroke

/-- The row that leads from the branch to the message. -/
def pointer (widths : List Nat) (middle : Nat) : String :=
  String.ofList <| widths.zipIdx.flatMap fun (w, i) =>
    if i < middle then cell w ' ' ' ' else cell w (if i = middle then '╰' else '─') '─'

def aligned (columns n : Nat) : String := String.ofList ((toString n).toList.leftpad columns ' ')

def numbered (columns : Nat) (l : Line) (lead : String) : String :=
  " " ++ aligned columns (l.index + 1) ++ " │ " ++ lead ++ l.shown

/-- The rows of a mark within one line. -/
def singleRows (columns : Nat) (margin : String) (l : Line) (mark : Mark) (label : String) :
    List String :=
  let middle := (mark.start + mark.stop) / 2 - l.start
  let widths := l.widths (mark.stop - l.start + 2)
  [numbered columns l "", margin ++ "│ " ++ underline widths l.start middle mark,
    margin ++ "│ " ++ pointer widths middle ++ " " ++ label]

/-- The rows of a mark that runs over several lines. -/
def multiRows (columns : Nat) (margin : String) (l k : Line) (label : String) : List String :=
  let reach := (k.widths (k.text.length + 2)).foldl (· + ·) 0
  [numbered columns l "╭─▶ "] ++
    (if k.index - l.index > 1 then [margin ++ "┆ ┆   "] else []) ++
    [numbered columns k "├─▶ ",
      margin ++ "│ │   " ++ String.ofList (List.replicate reach ' '),
      margin ++ "│ ╰───" ++ String.ofList (List.replicate reach '─') ++ " " ++ label]

def heading : Severity → String
  | .error => "Error"
  | .warning => "Warning"

def located (path : String) (cs : List Char) (d : Diagnostic) : List String :=
  let lines := sourceLines cs
  let mark := markOf cs d.span
  let l := lineAt lines mark.start
  let k := if mark.start = mark.stop then l else lineAt lines (mark.stop - 1)
  let columns := (toString (k.index + 1)).length
  let margin := String.ofList (List.replicate (columns + 2) ' ')
  let place := toString (l.index + 1) ++ ":" ++ toString (mark.start - l.start + 1)
  ["[" ++ d.finding.code ++ "] " ++ heading d.finding.severity ++ ": " ++ d.finding.message,
    margin ++ "╭─[ " ++ path ++ ":" ++ place ++ " ]", margin ++ "│"] ++
    (if l.index = k.index then singleRows columns margin l mark d.hintedMessage
      else multiRows columns margin l k d.hintedMessage) ++
    (if d.fix.isSome then
      [margin ++ "│ ", margin ++ "│ Help: run with --fix to apply the suggestion"] else []) ++
    [String.ofList (List.replicate (columns + 2) '─') ++ "╯"]

/-- The rows of a diagnostic; without a place it is reported on one line. -/
def rows (path : String) (cs : List Char) (d : Diagnostic) : List String :=
  if d.span.line = 0 then [plain path d] else located path cs d

end Parley.Report.Snippet

namespace Parley.Report

def pretty (path source : String) (diagnostics : List Diagnostic) : String :=
  Lines.unlines (diagnostics.flatMap (Snippet.rows path source.toList))

end Parley.Report
