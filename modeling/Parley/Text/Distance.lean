/-
The edit distance of two words: the least number of single characters to insert, delete or
substitute on the way from one to the other. It is computed row by row, a row holding the
distances from one tail of the first word to every tail of the second.
-/

namespace Parley.Distance

/-- The distances from the empty word to every tail of a word. -/
def firstRow : List Char → List Nat
  | [] => [0]
  | _ :: ys => (ys.length + 1) :: firstRow ys

def nextRow (x : Char) : List Char → List Nat → List Nat
  | y :: ys, down :: row =>
    let next := nextRow x ys row
    let change := row.headD 0 + if x = y then 0 else 1
    min (min (down + 1) (next.headD 0 + 1)) change :: next
  | _, row => row.map (· + 1)

def row (ys : List Char) (xs : List Char) : List Nat := xs.foldr (nextRow · ys) (firstRow ys)

def between (a b : String) : Nat := (row b.toList a.toList).headD 0

end Parley.Distance
