/-
What parsers cannot see. The text and the span of a lexeme reach the values that are read and
nothing else: on lexemes with the same tokens a parser goes the same way, reports the same
mismatch and reads related values. Each combinator keeps this, so it holds of every parser made of
them.
-/
import Parley.Proofs.Parser.Recursion
import Mathlib.Data.Option.Basic

namespace Parley

def tokensOf (ls : List Lexeme) : List Token := ls.map (·.token)

@[simp] theorem tokensOf_nil : tokensOf [] = [] := rfl

@[simp] theorem tokensOf_cons (l : Lexeme) (ls : List Lexeme) : tokensOf (l :: ls) = l.token :: tokensOf ls := rfl

@[simp] theorem tokensOf_append (ls ms : List Lexeme) : tokensOf (ls ++ ms) = tokensOf ls ++ tokensOf ms :=
  List.map_append

@[simp] theorem length_tokensOf (ls : List Lexeme) : (tokensOf ls).length = ls.length := List.length_map _

namespace Parser

variable {α β : Type} {R : α → α → Prop} {S : β → β → Prop}

def RelatedRest (R : α → α → Prop) (x y : α × List Lexeme) : Prop := R x.1 y.1 ∧ tokensOf x.2 = tokensOf y.2

/-- A parser that sees only the tokens: on lexemes with the same tokens it reads related values. -/
def Blind (R : α → α → Prop) (p : Parser α) : Prop := ∀ ts us, tokensOf ts = tokensOf us →
  (p ts).furthest = (p us).furthest ∧ Option.Rel (RelatedRest R) (p ts).result (p us).result

/-- Values that `e` does not tell apart. -/
abbrev Same {γ : Type} (e : α → γ) (a b : α) : Prop := e a = e b

/-- Functions that take related arguments to related values. -/
abbrev Respectful (R : α → α → Prop) (S : β → β → Prop) (f g : α → β) : Prop := ∀ a b, R a b → S (f a) (g b)

namespace Blind

variable {p q : Parser α}

theorem mono {R' : α → α → Prop} (h : Blind R p) (hR : ∀ a b, R a b → R' a b) : Blind R' p := by
  intro ts us htu
  obtain ⟨hm, hr⟩ := h ts us htu
  refine ⟨hm, ?_⟩
  generalize (p ts).result = x at hr ⊢
  generalize (p us).result = y at hr ⊢
  cases hr with
  | none => exact .none
  | some h => exact .some ⟨hR _ _ h.1, h.2⟩

theorem pure {a : α} (h : R a a) : Blind R (Pure.pure a : Parser α) :=
  fun _ _ htu => ⟨rfl, .some ⟨h, htu⟩⟩

theorem satisfy {e : Expectation} {read : Lexeme → Option α}
    (h : ∀ l m : Lexeme, l.token = m.token → Option.Rel R (read l) (read m)) : Blind R (satisfy e read) := by
  rintro (_ | ⟨t, ts⟩) (_ | ⟨u, us⟩) htu
  · exact ⟨rfl, .none⟩
  · cases htu
  · cases htu
  · simp only [tokensOf_cons, List.cons.injEq] at htu
    have hlength : ts.length = us.length := by rw [← length_tokensOf, htu.2, length_tokensOf]
    have ht := h t u htu.1
    simp only [Parser.satisfy]
    generalize read t = x at ht ⊢
    generalize read u = y at ht ⊢
    cases ht with
    | none => exact ⟨by simp only [hlength], .none⟩
    | some h => exact ⟨rfl, .some ⟨h, htu.2⟩⟩

theorem token (t : Token) : Blind (fun _ _ => True) (token t) := by
  unfold Parser.token
  refine satisfy fun l m h => ?_
  rw [h]
  split
  · exact .some trivial
  · exact .none

theorem map {f : α → β} (h : Blind R p) (hf : ∀ a b, R a b → S (f a) (f b)) : Blind S (f <$> p) := by
  intro ts us htu
  obtain ⟨hm, hr⟩ := h ts us htu
  refine ⟨hm, ?_⟩
  rw [result_map, result_map]
  generalize (p ts).result = x at hr ⊢
  generalize (p us).result = y at hr ⊢
  cases hr with
  | none => exact .none
  | some h => exact .some ⟨hf _ _ h.1, h.2⟩

theorem seq {f : Parser (α → β)} (hf : Blind (Respectful R S) f) (hp : Blind R p) : Blind S (f <*> p) := by
  intro ts us htu
  obtain ⟨hm, hr⟩ := hf ts us htu
  rw [furthest_seq, furthest_seq, result_seq, result_seq, hm]
  generalize (f ts).result = x at hr ⊢
  generalize (f us).result = y at hr ⊢
  cases hr with
  | none => exact ⟨rfl, .none⟩
  | @some g g' h =>
    obtain ⟨hm', hr'⟩ := hp g.2 g'.2 h.2
    simp only [Option.bind_some]
    refine ⟨by rw [hm'], ?_⟩
    generalize (p g.2).result = x at hr' ⊢
    generalize (p g'.2).result = y at hr' ⊢
    cases hr' with
    | none => exact .none
    | some h' => exact .some ⟨h.1 _ _ h'.1, h'.2⟩

theorem before {q : Parser β} (hp : Blind R p) (hq : Blind S q) : Blind R (p <* q) := by
  rw [seqLeft_eq]
  exact (hp.map (S := Respectful S R) fun a b h _ _ _ => h).seq hq

theorem behind {q : Parser β} (hp : Blind R p) (hq : Blind S q) : Blind S (p *> q) := by
  rw [seqRight_eq]
  exact (hp.map (S := Respectful S S) fun _ _ _ _ _ h => h).seq hq

theorem orElse (hp : Blind R p) (hq : Blind R q) : Blind R (orElse p q) := by
  intro ts us htu
  obtain ⟨hm, hr⟩ := hp ts us htu
  obtain ⟨hm', hr'⟩ := hq ts us htu
  rw [furthest_orElse, furthest_orElse, result_orElse, result_orElse, hm, hm']
  generalize (p ts).result = x at hr ⊢
  generalize (p us).result = y at hr ⊢
  cases hr with
  | none => exact ⟨by simp, hr'⟩
  | some h => exact ⟨by simp, .some h⟩

theorem optional (h : Blind R p) : Blind (Option.Rel R) (optional p) :=
  (h.map fun _ _ hab => .some hab).orElse (pure .none)

theorem many (h : Blind R p) : Blind (List.Forall₂ R) (many p) := by
  intro ts us htu
  obtain ⟨hm, hr⟩ := h ts us htu
  have hlength : ts.length = us.length := by rw [← length_tokensOf, htu, length_tokensOf]
  unfold Parser.many
  rw [manyFrom, manyFrom]
  generalize p ts = o at hm hr ⊢
  generalize p us = o' at hm hr ⊢
  rcases o with ⟨x, m⟩
  rcases o' with ⟨y, m'⟩
  obtain rfl : m = m' := hm
  have hr : Option.Rel (RelatedRest R) x y := hr
  cases hr with
  | none => exact ⟨rfl, .some ⟨.nil, htu⟩⟩
  | @some x y h' =>
    have hrest : x.2.length = y.2.length := by rw [← length_tokensOf, h'.2, length_tokensOf]
    simp only [hrest, hlength]
    split
    · have hlt : x.2.length < ts.length := by omega
      obtain ⟨hm, hr⟩ := many h x.2 y.2 h'.2
      refine ⟨congrArg (Mismatch.join m) hm, ?_⟩
      show Option.Rel _ ((Parser.many p x.2).result.map _) ((Parser.many p y.2).result.map _)
      generalize (Parser.many p x.2).result = v at hr ⊢
      generalize (Parser.many p y.2).result = w at hr ⊢
      cases hr with
      | none => exact .none
      | some h'' => exact .some ⟨.cons h'.1 h''.1, h''.2⟩
    · exact ⟨rfl, .some ⟨.cons h'.1 .nil, h'.2⟩⟩
termination_by ts => ts.length

theorem label (c : Construct) (h : Blind R p) : Blind R (label c p) := by
  intro ts us htu
  obtain ⟨hm, hr⟩ := h ts us htu
  have hlength : ts.length = us.length := by rw [← length_tokensOf, htu, length_tokensOf]
  exact ⟨by unfold Parser.label; simp only [hm, hlength], hr⟩

theorem located (h : Blind R p) : Blind (fun x y => R x.1 y.1) (located p) := by
  intro ts us htu
  obtain ⟨hm, hr⟩ := h ts us htu
  rw [furthest_located, furthest_located, result_located, result_located]
  refine ⟨hm, ?_⟩
  generalize (p ts).result = x at hr ⊢
  generalize (p us).result = y at hr ⊢
  cases hr with
  | none => exact .none
  | some h => exact .some h

theorem atEnd : Blind (fun _ _ => True) atEnd := by
  rintro (_ | ⟨t, ts⟩) (_ | ⟨u, us⟩) htu
  · exact ⟨rfl, .some ⟨trivial, rfl⟩⟩
  · cases htu
  · cases htu
  · have hlength : (t :: ts).length = (u :: us).length := by rw [← length_tokensOf, htu, length_tokensOf]
    exact ⟨by unfold Parser.atEnd; simp only [hlength], .none⟩

/-- A recursive parser is blind if its body is whenever its hole is. -/
theorem recursive {body : Parser α → Parser α} {L : Readings α} (hbody : Productive body L)
    (h : ∀ p, Blind R p → Blind R (body p)) : Blind R (recursive body) := by
  have hunfolded : ∀ n, Blind R (body^[n] refuse) := by
    intro n
    induction n with
    | zero =>
      intro ts us htu
      have hlength : ts.length = us.length := by rw [← length_tokensOf, htu, length_tokensOf]
      exact ⟨by simp only [Function.iterate_zero, id, refuse, hlength], .none⟩
    | succ n ih => rw [Function.iterate_succ_apply']; exact h _ ih
  intro ts us htu
  have hlength : ts.length = us.length := by rw [← length_tokensOf, htu, length_tokensOf]
  rw [hbody.recursive_unfolded _ ts (Nat.lt_succ_self _), hbody.recursive_unfolded (ts.length + 1) us (by omega)]
  exact hunfolded _ ts us htu

end Blind

end Parser

end Parley
