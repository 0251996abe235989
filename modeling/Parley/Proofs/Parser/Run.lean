/-
What each combinator makes of its input: one equation for the value it reads and one for the
furthest mismatch it reports. Repetition is unfolded once.
-/
import Parley.Parser.Basic

namespace Parley

namespace Mismatch

@[simp] theorem join_none_left (b : Option Mismatch) : join none b = b := by cases b <;> rfl

@[simp] theorem join_none_right (a : Option Mismatch) : join a none = a := by cases a <;> rfl

/-- The joined mismatch stands where one of the two stands, and neither is further. -/
theorem join_some {a b : Option Mismatch} {m : Mismatch} (h : join a b = some m) :
    ((∃ x, a = some x ∧ x.left = m.left) ∨ ∃ x, b = some x ∧ x.left = m.left) ∧
      (∀ x, a = some x → m.left ≤ x.left) ∧ ∀ x, b = some x → m.left ≤ x.left := by
  rcases a with _ | a
  · rw [join_none_left] at h; subst h; simp
  rcases b with _ | b
  · rw [join_none_right] at h; cases h; simp
  simp only [join] at h
  split at h
  · cases h; simp; omega
  · split at h
    · cases h; simp; omega
    · cases h; simp; omega

theorem join_ne_none {a b : Option Mismatch} (h : a ≠ none ∨ b ≠ none) : join a b ≠ none := by
  rcases a with _ | a <;> rcases b with _ | b
  · simp at h
  · simp
  · simp
  · simp only [join]
    split
    · simp
    · split <;> simp

/-- Whatever lies behind the furthest of two mismatches lies behind both. -/
theorem lt_of_join {a b : Option Mismatch} {n : Nat} (h : ∀ m, join a b = some m → n < m.left) :
    (∀ m, a = some m → n < m.left) ∧ ∀ m, b = some m → n < m.left := by
  have hboth : ∀ x, a = some x ∨ b = some x → n < x.left := by
    intro x hx
    have hsome : a ≠ none ∨ b ≠ none := hx.imp (by simp [·]) (by simp [·])
    obtain ⟨j, hj⟩ := Option.ne_none_iff_exists'.1 (join_ne_none hsome)
    obtain ⟨-, ha, hb⟩ := join_some hj
    have hlt := h j hj
    rcases hx with hx | hx
    · have := ha x hx; omega
    · have := hb x hx; omega
  exact ⟨fun m hm => hboth m (.inl hm), fun m hm => hboth m (.inr hm)⟩

end Mismatch

namespace Parser

variable {α β : Type}

/-! ## Sequences -/

@[simp] theorem result_pure (a : α) (ts : List Lexeme) : ((pure a : Parser α) ts).result = some (a, ts) := rfl

@[simp] theorem furthest_pure (a : α) (ts : List Lexeme) : ((pure a : Parser α) ts).furthest = none := rfl

@[simp] theorem result_map (f : α → β) (p : Parser α) (ts : List Lexeme) :
    ((f <$> p) ts).result = (p ts).result.map fun x => (f x.1, x.2) := rfl

@[simp] theorem furthest_map (f : α → β) (p : Parser α) (ts : List Lexeme) :
    ((f <$> p) ts).furthest = (p ts).furthest := rfl

@[simp] theorem result_seq (f : Parser (α → β)) (p : Parser α) (ts : List Lexeme) :
    ((f <*> p) ts).result = (f ts).result.bind fun x => (p x.2).result.map fun y => (x.1 y.1, y.2) := by
  show (Parser.seq f (fun _ => p) ts).result = _
  unfold Parser.seq
  rcases f ts with ⟨_ | ⟨g, rest⟩, m⟩ <;> rfl

/-- A sequence reports the mismatches of its second part as well, once its first part is read. -/
theorem furthest_seq (f : Parser (α → β)) (p : Parser α) (ts : List Lexeme) :
    ((f <*> p) ts).furthest =
      Mismatch.join (f ts).furthest ((f ts).result.bind fun x => (p x.2).furthest) := by
  show (Parser.seq f (fun _ => p) ts).furthest = _
  unfold Parser.seq
  rcases f ts with ⟨_ | ⟨g, rest⟩, m⟩
  · simp
  · rfl

theorem seqLeft_eq (p : Parser α) (q : Parser β) : p <* q = Function.const β <$> p <*> q := rfl

theorem seqRight_eq (p : Parser α) (q : Parser β) : p *> q = Function.const α id <$> p <*> q := rfl

theorem seqRight_apply (p : Parser α) (q : Parser β) (ts : List Lexeme) :
    (p *> q) ts = match p ts with
      | ⟨none, m⟩ => ⟨none, m⟩
      | ⟨some (_, rest), m⟩ => (q rest).after m := by
  show Parser.seq (fun us => (p us).map (Function.const α id)) (fun _ => q) ts = _
  simp only [Parser.seq]
  rcases p ts with ⟨_ | ⟨a, rest⟩, m⟩
  · rfl
  · show ((q rest).map id).after m = (q rest).after m
    rcases q rest with ⟨_ | x, m'⟩ <;> rfl

@[simp] theorem result_seqLeft (p : Parser α) (q : Parser β) (ts : List Lexeme) :
    ((p <* q) ts).result = (p ts).result.bind fun x => (q x.2).result.map fun y => (x.1, y.2) := by
  rw [seqLeft_eq, result_seq, result_map]; cases (p ts).result <;> rfl

@[simp] theorem result_seqRight (p : Parser α) (q : Parser β) (ts : List Lexeme) :
    ((p *> q) ts).result = (p ts).result.bind fun x => (q x.2).result := by
  rw [seqRight_eq, result_seq, result_map]
  cases (p ts).result with
  | none => rfl
  | some x => simp

/-! ## Single lexemes -/

@[simp] theorem result_satisfy_nil (e : Expectation) (read : Lexeme → Option α) :
    (satisfy e read []).result = none := rfl

@[simp] theorem result_satisfy_cons (e : Expectation) (read : Lexeme → Option α) (t : Lexeme) (ts : List Lexeme) :
    (satisfy e read (t :: ts)).result = (read t).map fun a => (a, ts) := by
  unfold satisfy; cases h : read t <;> simp [h]

@[simp] theorem result_token_nil (t : Token) : (token t []).result = none := rfl

@[simp] theorem result_token_cons (t : Token) (l : Lexeme) (ts : List Lexeme) :
    (token t (l :: ts)).result = if l.token = t then some ((), ts) else none := by
  unfold token; rw [result_satisfy_cons]; split <;> rfl

@[simp] theorem result_atEnd_nil : (atEnd []).result = some ((), []) := rfl

@[simp] theorem result_atEnd_cons (l : Lexeme) (ts : List Lexeme) : (atEnd (l :: ts)).result = none := rfl

/-! ## Alternatives -/

@[simp] theorem result_orElse (p q : Parser α) (ts : List Lexeme) :
    (orElse p q ts).result = (p ts).result.or (q ts).result := by
  unfold orElse; rcases p ts with ⟨_ | x, m⟩ <;> rfl

/-- Only a refused first alternative makes room for the second. -/
theorem furthest_orElse (p q : Parser α) (ts : List Lexeme) :
    (orElse p q ts).furthest =
      if (p ts).result = none then Mismatch.join (p ts).furthest (q ts).furthest else (p ts).furthest := by
  unfold orElse; rcases p ts with ⟨_ | x, m⟩ <;> simp [Outcome.after]

@[simp] theorem result_fail (ts : List Lexeme) : ((Parser.fail : Parser α) ts).result = none := rfl

@[simp] theorem orElse_fail (p : Parser α) : orElse p Parser.fail = p := by
  funext ts
  unfold orElse
  rcases p ts with ⟨_ | x, m⟩ <;> simp [Outcome.after, Parser.fail]

@[simp] theorem choice_nil : choice ([] : List (Parser α)) = Parser.fail := rfl

@[simp] theorem choice_cons (p : Parser α) (ps : List (Parser α)) : choice (p :: ps) = orElse p (choice ps) := rfl

@[simp] theorem result_optional (p : Parser α) (ts : List Lexeme) :
    (optional p ts).result = ((p ts).result.map fun x => (some x.1, x.2)).or (some (none, ts)) := by
  unfold optional; simp

/-! ## Labels and spans -/

@[simp] theorem result_label (c : Construct) (p : Parser α) (ts : List Lexeme) :
    (label c p ts).result = (p ts).result := rfl

/-- A label renames what was expected, not where. -/
theorem left_label {c : Construct} {p : Parser α} {ts : List Lexeme} {m : Mismatch}
    (h : (label c p ts).furthest = some m) : ∃ x, (p ts).furthest = some x ∧ x.left = m.left := by
  unfold label at h
  rcases hp : (p ts).furthest with _ | x
  · simp [hp] at h
  · simp only [hp, Option.map_some, Option.some.injEq] at h
    refine ⟨x, rfl, ?_⟩
    subst h
    split <;> rfl

theorem label_eq_none {c : Construct} {p : Parser α} {ts : List Lexeme} :
    (label c p ts).furthest = none ↔ (p ts).furthest = none := by
  unfold label; simp

@[simp] theorem result_located (p : Parser α) (ts : List Lexeme) :
    (located p ts).result = (p ts).result.map fun x => ((x.1, spanRead ts x.2), x.2) := by
  unfold located; rcases p ts with ⟨_ | ⟨a, rest⟩, m⟩ <;> rfl

@[simp] theorem furthest_located (p : Parser α) (ts : List Lexeme) :
    (located p ts).furthest = (p ts).furthest := by
  unfold located; rcases p ts with ⟨_ | ⟨a, rest⟩, m⟩ <;> rfl

/-- The span of what has been read does not depend on what follows. -/
theorem spanRead_append (w rest : List Lexeme) : spanRead (w ++ rest) rest = spanRead w [] := by
  have htake : (w ++ rest).take ((w ++ rest).length - rest.length) = w := by
    rw [List.length_append, Nat.add_sub_cancel, List.take_left]
  unfold spanRead
  rw [htake]
  rcases w with _ | ⟨t, w⟩
  · rcases rest with _ | ⟨l, rest⟩ <;> rfl
  · simp only [List.length_nil, Nat.sub_zero, List.take_length, List.cons_append]
    cases (t :: w).getLast? <;> rfl

/-- The span of some lexemes runs from the first to the last of them. -/
theorem spanRead_nil {w : List Lexeme} (h : w ≠ []) :
    spanRead w [] = (w.head h).span.upTo (w.getLast h).span := by
  rcases w with _ | ⟨t, w⟩
  · exact absurd rfl h
  · simp only [spanRead, List.length_nil, Nat.sub_zero, List.take_length, List.getLast?_eq_some_getLast h,
      List.head_cons]

/-! ## Repetition -/

theorem many_of_none {p : Parser α} {ts : List Lexeme} (h : (p ts).result = none) :
    many p ts = ⟨some ([], ts), (p ts).furthest⟩ := by
  unfold many; rw [manyFrom]
  rcases hp : p ts with ⟨r, m⟩
  simp only [hp] at h; subst h; rfl

theorem many_of_some {p : Parser α} {ts rest : List Lexeme} {a : α} (h : (p ts).result = some (a, rest))
    (hlt : rest.length < ts.length) :
    many p ts = ((many p rest).map (a :: ·)).after (p ts).furthest := by
  unfold many; rw [manyFrom]
  rcases hp : p ts with ⟨r, m⟩
  simp only [hp] at h; subst h
  simp only [if_pos hlt]

end Parser

end Parley
