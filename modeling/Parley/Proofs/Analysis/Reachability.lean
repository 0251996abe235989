/-
The search for the blocks that control can reach is exact: it finds the entry blocks and whatever a
chain of `goto` edges leads to from them. The edges of a visited node lead to nodes that are visited
or on the stack, and a turn keeps this; so when the stack is empty, the visited nodes are closed
under all edges. Targets that were visited before are not missed: they were closed under their edges
already.
-/
import Parley.Analysis.Reachability
import Mathlib.Logic.Function.Iterate
import Mathlib.Logic.Relation

namespace Parley

namespace Search

@[simp] theorem mem_targets {edges : List (String × String)} {a b : String} : b ∈ targets edges a ↔ (a, b) ∈ edges := by
  simp [targets]

/-- A node that is visited or is to be looked at. -/
def Knows (s : Search) (name : String) : Prop := name ∈ s.visited ∨ name ∈ s.work

/-- The edges of visited nodes lead to nodes that are known. -/
def Frontier (edges : List (String × String)) (s : Search) : Prop :=
  ∀ a b, (a, b) ∈ edges → a ∈ s.visited → s.Knows b

variable {edges : List (String × String)} {s : Search}

/-! ## One turn -/

/-- A turn ends the search, drops a node that was visited before, or visits a new node. -/
theorem turn_cases (edges : List (String × String)) (s : Search) :
    (s.work = [] ∧ s.turn edges = s) ∨
    (∃ name rest, s.work = name :: rest ∧ name ∈ s.visited ∧ s.turn edges = ⟨s.visited, rest⟩) ∨
    ∃ name rest, s.work = name :: rest ∧ name ∉ s.visited ∧ (s.turn edges).visited = name :: s.visited ∧
      ∀ b, b ∈ (s.turn edges).work ↔ ((name, b) ∈ edges ∧ b ∉ name :: s.visited) ∨ b ∈ rest := by
  obtain ⟨visited, work⟩ := s
  cases work with
  | nil => exact .inl ⟨rfl, rfl⟩
  | cons name rest =>
    right
    by_cases hold : name ∈ visited
    · exact .inl ⟨name, rest, rfl, hold, by simp [turn, hold]⟩
    · refine .inr ⟨name, rest, rfl, hold, by simp [turn, hold], fun b => ?_⟩
      simp [turn, hold]

theorem knows_turn {name : String} (h : s.Knows name) : (s.turn edges).Knows name := by
  rcases turn_cases edges s with ⟨-, hsame⟩ | ⟨top, rest, hwork, hold, hturn⟩ | ⟨top, rest, hwork, -, hvisited, hrest⟩
  · rwa [hsame]
  · rw [hturn]
    rcases h with h | h
    · exact .inl h
    · rw [hwork] at h
      rcases List.mem_cons.1 h with rfl | h
      · exact .inl hold
      · exact .inr h
  · rcases h with h | h
    · exact .inl (hvisited ▸ List.mem_cons_of_mem top h)
    · rw [hwork] at h
      rcases List.mem_cons.1 h with rfl | h
      · exact .inl (hvisited ▸ List.mem_cons_self)
      · exact .inr ((hrest name).2 (.inr h))

/-- What a turn gets to know is the target of an edge from a node that was known. -/
theorem of_knows_turn {name : String} (h : (s.turn edges).Knows name) :
    s.Knows name ∨ ∃ a, s.Knows a ∧ (a, name) ∈ edges := by
  rcases turn_cases edges s with ⟨-, hsame⟩ | ⟨top, rest, hwork, hold, hturn⟩ | ⟨top, rest, hwork, -, hvisited, hrest⟩
  · exact .inl (hsame ▸ h)
  · rw [hturn] at h
    exact .inl (h.imp_right fun h => hwork ▸ List.mem_cons_of_mem top h)
  · have htop : s.Knows top := .inr (hwork ▸ List.mem_cons_self)
    rcases h with h | h
    · rw [hvisited] at h
      rcases List.mem_cons.1 h with rfl | h
      · exact .inl htop
      · exact .inl (.inl h)
    · rcases (hrest name).1 h with ⟨hedge, -⟩ | h
      · exact .inr ⟨top, htop, hedge⟩
      · exact .inl (.inr (hwork ▸ List.mem_cons_of_mem top h))

theorem frontier_turn (h : s.Frontier edges) : (s.turn edges).Frontier edges := by
  intro a b hedge ha
  rcases turn_cases edges s with ⟨-, hsame⟩ | ⟨top, rest, -, -, hturn⟩ | ⟨top, rest, -, -, hvisited, hrest⟩
  · rw [hsame] at ha
    exact knows_turn (h a b hedge ha)
  · rw [hturn] at ha
    exact knows_turn (h a b hedge ha)
  · rw [hvisited] at ha
    rcases List.mem_cons.1 ha with rfl | ha
    · -- a target is put on the stack unless it is visited, the node itself included
      by_cases hb : b ∈ a :: s.visited
      · exact .inl (hvisited ▸ hb)
      · exact .inr ((hrest b).2 (.inl ⟨hedge, hb⟩))
    · exact knows_turn (h a b hedge ha)

/-! ## All turns -/

/-- Whatever is closed under the edges and has the known nodes has all nodes found. -/
theorem finish_sound {P : String → Prop} (hclosed : ∀ a b, (a, b) ∈ edges → P a → P b) (h : ∀ a, s.Knows a → P a) :
    ∀ a ∈ s.finish edges, P a := by
  fun_induction finish edges s with
  | case1 s _ => exact fun a ha => h a (.inl ha)
  | case2 s _ ih =>
    refine ih fun a ha => ?_
    rcases of_knows_turn ha with ha | ⟨b, hb, hedge⟩
    · exact h a ha
    · exact hclosed b a hedge (h b hb)

/-- The search finds the known nodes, and with a node all that its edges lead to. -/
theorem finish_complete (h : s.Frontier edges) : (∀ a, s.Knows a → a ∈ s.finish edges) ∧
    ∀ a b, (a, b) ∈ edges → a ∈ s.finish edges → b ∈ s.finish edges := by
  fun_induction finish edges s with
  | case1 s hdone =>
    have hfound : ∀ a, s.Knows a → a ∈ s.visited := fun a ha => ha.resolve_right (by simp [hdone])
    exact ⟨hfound, fun a b hedge ha => hfound b (h a b hedge ha)⟩
  | case2 s _ ih =>
    obtain ⟨hfound, hclosed⟩ := ih (frontier_turn h)
    exact ⟨fun a ha => hfound a (knows_turn ha), hclosed⟩

/-- The search comes to its end within the turns that remain. -/
theorem exists_turns (edges : List (String × String)) (s : Search) : ∃ turns ≤ s.remaining edges,
    (turn edges)^[turns] s = ⟨s.finish edges, []⟩ := by
  fun_induction finish edges s with
  | case1 s hdone => exact ⟨0, Nat.zero_le _, by rw [Function.iterate_zero_apply, ← hdone]⟩
  | case2 s hopen ih =>
    obtain ⟨turns, hle, hturns⟩ := ih
    have hlt := remaining_turn_lt edges hopen
    exact ⟨turns + 1, by omega, by rw [Function.iterate_succ_apply, hturns]⟩

end Search

/-- Reachable are the blocks that a chain of `goto` leads to from an entry block. -/
theorem Transaction.mem_reachable {tx : Transaction} {name : String} :
    name ∈ tx.reachable ↔ ∃ start ∈ tx.entryNames, Relation.ReflTransGen (fun a b => (a, b) ∈ tx.gotoEdges) start name := by
  have hknown : ∀ a, (Search.start tx.entryNames).Knows a ↔ a ∈ tx.entryNames := by
    simp [Search.Knows, Search.start]
  constructor
  · refine Search.finish_sound
      (P := fun b => ∃ start ∈ tx.entryNames, Relation.ReflTransGen (fun a b => (a, b) ∈ tx.gotoEdges) start b) ?_ ?_ name
    · rintro a b hab ⟨start, hstart, hchain⟩
      exact ⟨start, hstart, hchain.tail hab⟩
    · exact fun a ha => ⟨a, (hknown a).1 ha, .refl⟩
  · rintro ⟨start, hstart, hchain⟩
    obtain ⟨hfound, hclosed⟩ := @Search.finish_complete tx.gotoEdges (.start tx.entryNames)
      fun a b _ ha => absurd ha List.not_mem_nil
    induction hchain with
    | refl => exact hfound start ((hknown start).2 hstart)
    | tail _ hedge ih => exact hclosed _ _ hedge ih

end Parley
