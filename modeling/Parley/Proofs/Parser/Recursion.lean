/-
Recursive parsers. A body that looks at its hole only after a lexeme has been used up makes a
parser that agrees, on inputs of bounded length, with finitely many unfoldings of the body; so it
reads what the body reads, and is a fixed point of the body.
-/
import Parley.Proofs.Parser.Reads

namespace Parley.Parser

variable {α β : Type}

/-! ## Recursion -/

/-- Two parsers that make the same of every input of at most `n` lexemes. -/
def Agree (n : Nat) (p q : Parser α) : Prop := ∀ ts, ts.length ≤ n → p ts = q ts

namespace Agree

variable {p p' : Parser α} {L : Readings α} {n : Nat}

theorem refl (n : Nat) (p : Parser α) : Agree n p p := fun _ _ => rfl

theorem map (f : α → β) (h : Agree n p p') : Agree n (f <$> p) (f <$> p') := by
  intro ts hts
  show (p ts).map f = (p' ts).map f
  rw [h ts hts]

theorem seq {f f' : Parser (α → β)} {F : Readings (α → β)} (hf : Agree n f f') (rf : Reads f' F)
    (hp : Agree n p p') : Agree n (f <*> p) (f' <*> p') := by
  intro ts hts
  show Parser.seq f (fun _ => p) ts = Parser.seq f' (fun _ => p') ts
  unfold Parser.seq
  rw [hf ts hts]
  rcases h : f' ts with ⟨_ | ⟨g, us⟩, m⟩
  · rfl
  · have := rf.length_le (show (f' ts).result = some (g, us) by rw [h])
    simp only [hp us (by omega)]

theorem before {q : Parser β} (hp : Agree n p p') (rp : Reads p' L) : Agree n (p <* q) (p' <* q) := by
  rw [seqLeft_eq, seqLeft_eq]
  exact (hp.map _).seq (rp.map _) (refl n q)

/-- After a lexeme has been used up, less has to agree. -/
theorem behind_one {read : Lexeme → Option β} {e : Expectation} (hp : ∀ ts, ts.length < n → p ts = p' ts) :
    Agree n (satisfy e read *> p) (satisfy e read *> p') := by
  intro ts hts
  rw [seqRight_apply, seqRight_apply]
  rcases ts with _ | ⟨t, ts⟩
  · rfl
  · have hpt : p ts = p' ts := hp ts (by simp only [List.length_cons] at hts; omega)
    rcases h : read t with _ | b
    · simp [satisfy, h]
    · simp [satisfy, h, hpt]

theorem orElse {q q' : Parser α} (hp : Agree n p p') (hq : Agree n q q') :
    Agree n (orElse p q) (Parser.orElse p' q') := by
  intro ts hts
  unfold Parser.orElse
  rw [hp ts hts, hq ts hts]

theorem optional (hp : Agree n p p') : Agree n (optional p) (Parser.optional p') :=
  (hp.map some).orElse (refl n _)

theorem label (c : Construct) (hp : Agree n p p') : Agree n (label c p) (Parser.label c p') := by
  intro ts hts
  unfold Parser.label
  rw [hp ts hts]

theorem located (hp : Agree n p p') : Agree n (located p) (Parser.located p') := by
  intro ts hts
  unfold Parser.located
  rw [hp ts hts]

theorem many (hp : Agree n p p') (rp : Reads p' L) (hL : L.Proper) : Agree n (many p) (Parser.many p') := by
  intro ts hts
  rcases h : (p' ts).result with _ | ⟨a, us⟩
  · rw [many_of_none h, many_of_none (by rw [hp ts hts, h]), hp ts hts]
  · have hlt := rp.length_lt hL h
    rw [many_of_some h hlt, many_of_some (by rw [hp ts hts, h]) hlt, hp ts hts,
      hp.many rp hL us (by omega)]
termination_by ts => ts.length

end Agree

/-- Refuses everything where it stands. -/
def refuse : Parser α := fun ts => ⟨none, some ⟨ts.length, []⟩⟩

theorem Reads.refuse {L : Readings α} (h : ∃ w a, L w a) : Reads (refuse : Parser α) L where
  inhabited := h
  sound hp := by cases hp
  explained _ := by simp [Parser.refuse]
  viable {ts m} hp := by
    obtain ⟨z, a, hz⟩ := h
    cases hp
    exact ⟨[], ts, z, a, rfl, rfl, hz⟩
  steady _ _ := ⟨fun _ => rfl, fun a rest ha => by cases ha⟩

/-- A body for a recursive parser: it reads what its hole reads, and looks at the hole only after
it has used up a lexeme. -/
structure Productive (body : Parser α → Parser α) (L : Readings α) : Prop where
  inhabited : ∃ w a, L w a
  reads : ∀ {p}, Reads p L → Reads (body p) L
  guarded : ∀ {p q n}, Reads q L → (∀ ts, ts.length < n → p ts = q ts) → Agree n (body p) (body q)

namespace Productive

variable {body : Parser α → Parser α} {L : Readings α}

theorem reads_unfolded (h : Productive body L) : ∀ n, Reads (body^[n] refuse) L
  | 0 => Reads.refuse h.inhabited
  | n + 1 => by rw [Function.iterate_succ_apply']; exact h.reads (h.reads_unfolded n)

/-- The calls that the guard of `recursiveFrom` lets through are all that a body makes. -/
theorem recursive_unfolded (h : Productive body L) :
    ∀ (n : Nat) (ts : List Lexeme), ts.length < n → recursive body ts = (body^[n] refuse) ts
  | n + 1, ts, hts => by
    show recursiveFrom body ts = _
    rw [recursiveFrom, Function.iterate_succ_apply']
    refine h.guarded (h.reads_unfolded n) (fun us hus => ?_) ts (Nat.le_refl _)
    rw [if_pos hus]
    exact h.recursive_unfolded n us (by omega)

/-- On any two texts a recursive parser is unfolded deep enough for both. -/
theorem recursive_unfolded_both (h : Productive body L) (ts us : List Lexeme) :
    ∃ n, recursive body ts = (body^[n] refuse) ts ∧ recursive body us = (body^[n] refuse) us := by
  have hts : ts.length < max ts.length us.length + 1 := by omega
  have hus : us.length < max ts.length us.length + 1 := by omega
  exact ⟨_, h.recursive_unfolded _ ts hts, h.recursive_unfolded _ us hus⟩

/-- A recursive parser reads what its body reads. -/
theorem recursive (h : Productive body L) : Reads (recursive body) L where
  inhabited := h.inhabited
  sound {ts a rest} hp := by
    rw [h.recursive_unfolded _ ts (Nat.lt_succ_self _)] at hp
    exact (h.reads_unfolded _).sound hp
  explained {ts} hp := by
    rw [h.recursive_unfolded _ ts (Nat.lt_succ_self _)] at hp ⊢
    exact (h.reads_unfolded _).explained hp
  viable {ts m} hp := by
    rw [h.recursive_unfolded _ ts (Nat.lt_succ_self _)] at hp
    exact (h.reads_unfolded _).viable hp
  steady {c r} hw r' := by
    obtain ⟨n, hr, hr'⟩ := h.recursive_unfolded_both (c ++ r) (c ++ r')
    rw [hr] at hw
    rw [hr, hr']
    exact (h.reads_unfolded n).steady hw r'

/-- A recursive parser is a fixed point of its body. -/
theorem recursive_eq (h : Productive body L) : Parser.recursive body = body (Parser.recursive body) := by
  funext ts
  show recursiveFrom body ts = _
  rw [recursiveFrom]
  exact h.guarded h.recursive (fun us hus => if_pos hus) ts (Nat.le_refl _)

end Productive

end Parley.Parser
