/-
The blocks that control can reach. Blocks are nodes by name, and every `goto` is an edge from each
block of its block's name to its target; reachable are the entry blocks and all that can be reached
from them. The search keeps a stack of nodes, in which a node may stand more than once; every node
visited uses up the edges that leave it, which bounds the search.
-/
import Parley.Schema.Basic

namespace Parley

/-- The `goto` edges of a transaction, from block name to block name. -/
def Transaction.gotoEdges (tx : Transaction) : List (String × String) :=
  tx.blocks.flatMap fun b =>
    (b.statements.filterMap (·.action.gotoTarget?)).map fun target => (b.name, target)

def Transaction.entryNames (tx : Transaction) : List String :=
  (tx.blocks.filter (·.entry)).map (·.name)

/-- A search in progress: the nodes visited, and a stack of those to be looked at, its top first. -/
structure Search where
  visited : List String
  work : List String
deriving DecidableEq, Repr

namespace Search

/-- A search that has the nodes of a list to look at, the last of them first. -/
def start (names : List String) : Search := ⟨[], names.reverse⟩

/-- The targets of the edges that leave a node. -/
def targets (edges : List (String × String)) (name : String) : List String :=
  (edges.filter fun e => e.1 == name).map Prod.snd

/-- Takes the node at the top of the stack. If it is new it is visited, and the targets of its edges
that are not visited are put on the stack. -/
def turn (edges : List (String × String)) (s : Search) : Search :=
  match s.work with
  | [] => s
  | name :: rest =>
    if s.visited.contains name then { s with work := rest }
    else
      let visited := name :: s.visited
      let fresh := (targets edges name).filter fun target => !visited.contains target
      { visited, work := fresh.reverse ++ rest }

/-- How many turns are left at most: one for each edge from a node that is not visited, and one for
each node on the stack. -/
def remaining (edges : List (String × String)) (s : Search) : Nat :=
  (edges.filter fun e => !s.visited.contains e.1).length + s.work.length

/-- The edges that leave a new node are no longer open once it is visited. -/
theorem length_targets_add_length_open (edges : List (String × String)) {visited : List String} {name : String}
    (hnew : visited.contains name = false) :
    (targets edges name).length + (edges.filter fun e => !(name :: visited).contains e.1).length =
      (edges.filter fun e => !visited.contains e.1).length := by
  induction edges with
  | nil => rfl
  | cons e edges ih =>
    simp only [targets, List.length_map, List.contains_cons] at ih ⊢
    have hopen : e.1 == name → visited.contains e.1 = false := fun hname => eq_of_beq hname ▸ hnew
    cases hname : e.1 == name with
    | true =>
      simp only [List.filter_cons, hname, hopen hname, Bool.true_or, Bool.not_true, Bool.not_false, if_true,
        Bool.false_eq_true, if_false, List.length_cons]
      omega
    | false =>
      cases hvisited : visited.contains e.1 <;>
        simp only [List.filter_cons, hname, hvisited, Bool.false_or, Bool.not_true, Bool.not_false, if_true,
          Bool.false_eq_true, if_false, List.length_cons] <;> omega

theorem remaining_turn_lt (edges : List (String × String)) {s : Search} (h : s.work ≠ []) :
    (s.turn edges).remaining edges < s.remaining edges := by
  obtain ⟨visited, work⟩ := s
  cases work with
  | nil => exact absurd rfl h
  | cons name rest =>
    unfold turn
    cases hnew : visited.contains name with
    | true =>
      simp only [remaining, hnew, if_true, List.length_cons]
      omega
    | false =>
      have hopen := length_targets_add_length_open edges hnew
      have hfresh := List.length_filter_le (fun target => !(name :: visited).contains target) (targets edges name)
      simp only [remaining, hnew, Bool.false_eq_true, if_false, List.length_append, List.length_reverse, List.length_cons]
      omega

/-- All nodes visited when the stack is empty. -/
def finish (edges : List (String × String)) (s : Search) : List String :=
  if s.work = [] then s.visited else (s.turn edges).finish edges
termination_by s.remaining edges
decreasing_by exact remaining_turn_lt edges ‹_›

end Search

/-- The names of the blocks that can be reached from an entry block. -/
def Transaction.reachable (tx : Transaction) : List String :=
  (Search.start tx.entryNames).finish tx.gotoEdges

end Parley
