/-
Suggestions for names that are not declared. Names at most two edits away are candidates, the
nearest first and among equally near ones the first declared. The suggestion may be applied without
asking if just one name is a single edit away.
-/
import Parley.Text.Distance

namespace Parley

structure Suggestion where
  name : String
  /-- Whether the name may be put in without asking. -/
  fixable : Bool
deriving DecidableEq, Repr

namespace Suggestion

/-- How far away a name may be to be put in. -/
def fixReach : Nat := 1

/-- How far away a name may be to be suggested. -/
def hintReach : Nat := 2

/-- The other names near a word with their distances, the nearest first. -/
def ranked (word : String) (names : List String) : List (String × Nat) :=
  let near := (names.filter (· ≠ word)).map fun name => (name, Distance.between word name)
  (near.filter fun e => decide (e.2 ≤ hintReach)).mergeSort fun a b => decide (a.2 ≤ b.2)

def among (word : String) (names : List String) : Option Suggestion :=
  let near := ranked word names
  let close := near.filter fun e => decide (e.2 ≤ fixReach)
  near.head?.map fun e => ⟨e.1, close.length == 1⟩

end Suggestion

end Parley
