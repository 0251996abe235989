/-
Where candid parsers stop, the list of things expected is the list of ways to go on. The entries of
the error of reading to the end stand for just the tokens with which the lexemes read so far can be
gone on with, and for the end if they can end there. The first half of the module tells with which
tokens a parser gets past its start, which is what its label has to say.
-/
import Parley.Proofs.Parser.Candid
import Parley.Proofs.Parser.Failure

namespace Parley.Parser

open Mismatch

variable {α β : Type}

/-! ## Tokens that a parser starts with -/

/-- A parser that reads nothing where it has not looked past its start. -/
def Skips (p : Parser α) : Prop := ∀ ts, (p ts).UpTo ts.length → ∃ a, (p ts).result = some (a, ts)

namespace Skips

variable {p : Parser α} {L : Readings α}

theorem map (f : α → β) (h : Skips p) : Skips (f <$> p) := by
  intro ts hup
  obtain ⟨a, ha⟩ := h ts (Candid.upTo_map.1 hup)
  exact ⟨f a, by simp [ha]⟩

theorem optional (hp : Reads p L) (hL : L.Proper) : Skips (optional p) := by
  intro ts hup
  rcases h : (p ts).result with _ | ⟨a, rest⟩
  · exact ⟨none, by simp [Parser.optional, h]⟩
  · have hlt := hp.length_lt hL h
    have hle := hup.result (some a) rest (by simp [Parser.optional, h])
    omega

theorem many (hp : Reads p L) (hL : L.Proper) : Skips (many p) := by
  intro ts hup
  rcases h : (p ts).result with _ | ⟨a, rest⟩
  · exact ⟨[], by rw [many_of_none h]⟩
  · have hlt := hp.length_lt hL h
    have hle := (Candid.upTo_many hp hL h hlt hup).1.result a rest h
    omega

end Skips

namespace Takes

variable {p q : Parser α} {L : Readings α} {t : Token}

theorem satisfy {e : Expectation} {read : Lexeme → Option α} (h : ∀ l : Lexeme, l.token = t → (read l).isSome) :
    Takes (satisfy e read) t := by
  intro l us hl hup
  obtain ⟨a, ha⟩ := Option.isSome_iff_exists.1 (h l hl)
  have hle := hup.result a us (by simp [ha])
  omega

theorem token (t : Token) : Takes (token t) t := satisfy fun l hl => by simp [hl]

theorem map (f : α → β) (h : Takes p t) : Takes (f <$> p) t :=
  fun l us hl hup => h l us hl (Candid.upTo_map.1 hup)

theorem first {f : Parser (α → β)} (h : Takes f t) (hp : Reads p L) : Takes (f <*> p) t :=
  fun l us hl hup => h l us hl (Candid.upTo_first hp hup)

/-- What the second part of a sequence starts with, the sequence starts with if the first part may
be left out. -/
theorem second {f : Parser (α → β)} (hf : Skips f) (hp : Reads p L) (h : Takes p t) : Takes (f <*> p) t := by
  intro l us hl hup
  obtain ⟨g, hg⟩ := hf (l :: us) (Candid.upTo_first hp hup)
  exact h l us hl (Candid.upTo_second hg hup)

theorem before {q : Parser β} {M : Readings β} (h : Takes p t) (hq : Reads q M) : Takes (p <* q) t := by
  rw [seqLeft_eq]
  exact (h.map _).first hq

theorem behind {q : Parser β} {M : Readings β} (h : Takes p t) (hq : Reads q M) : Takes (p *> q) t := by
  rw [seqRight_eq]
  exact (h.map _).first hq

theorem skipping {q : Parser β} {M : Readings β} (hp : Skips p) (hq : Reads q M) (h : Takes q t) :
    Takes (p <* q) t := by
  rw [seqLeft_eq]
  exact second (hp.map _) hq h

theorem left (h : Takes p t) : Takes (orElse p q) t := fun l us hl hup => h l us hl (Candid.upTo_left hup)

theorem right (hp : Reads p L) (hL : L.Proper) (h : Takes q t) : Takes (orElse p q) t := by
  intro l us hl hup
  rcases hr : (p (l :: us)).result with _ | ⟨a, rest⟩
  · exact h l us hl (Candid.upTo_right hr hup)
  · have hlt := hp.length_lt hL hr
    have hle := hup.result a rest (by simp [hr])
    simp only [List.length_cons] at hlt
    omega

theorem optional (h : Takes p t) : Takes (optional p) t := (h.map some).left

theorem many (hp : Reads p L) (hL : L.Proper) (h : Takes p t) : Takes (many p) t := by
  intro l us hl hup
  apply h l us hl
  rcases hr : (p (l :: us)).result with _ | ⟨a, rest⟩
  · rw [many_of_none hr] at hup
    exact ⟨hup.furthest, fun a rest ha => by rw [hr] at ha; cases ha⟩
  · exact (Candid.upTo_many hp hL hr (hp.length_lt hL hr) hup).1

theorem label (c : Construct) (h : Takes p t) : Takes (label c p) t :=
  fun l us hl hup => h l us hl (Candid.upTo_label.1 hup)

theorem located (h : Takes p t) : Takes (located p) t := fun l us hl hup => h l us hl (Candid.upTo_located.1 hup)

end Takes

/-! ## The error of reading to the end -/

section Ends

variable {p : Parser α} {L : Readings α} {us vs : List Lexeme} {n : Nat} {e : Expectation}

theorem covers_endOfInput {next : Option Token} : Expectation.endOfInput.Covers next ↔ next = none := by
  rcases next with _ | word | mark | _ | _ | _
  · simp [Expectation.Covers, Expectation.describe, entriesFor]
  · cases word <;> simp [Expectation.Covers, Expectation.describe, entriesFor, Token.entries, Keyword.constructs, Keyword.spelling]
  · cases mark <;> simp [Expectation.Covers, Expectation.describe, entriesFor, Token.entries, Symbol.constructs, Symbol.spelling]
  · simp [Expectation.Covers, Expectation.describe, entriesFor, Token.entries]
  · simp [Expectation.Covers, Expectation.describe, entriesFor, Token.entries]
  · simp [Expectation.Covers, Expectation.describe, entriesFor, Token.entries]

/-- Where reading to the end stops, the parser has not looked further. -/
theorem upTo_of_refused {ts : List Lexeme} (hn : ((p <* atEnd) ts).result = none)
    (hm : NotPast n ((p <* atEnd) ts).furthest) : (p ts).UpTo n := by
  rw [furthest_to_end, notPast_join] at hm
  refine ⟨hm.1, fun a rest ha => ?_⟩
  rcases rest with _ | ⟨l, rest⟩
  · rw [result_seqLeft, ha] at hn
    cases hn
  · rw [ha] at hm
    exact hm.2 _ rfl

/-- What is expected where reading to the end stops is expected by the parser, or it is the end
behind what the parser has read. -/
theorem records_to_end {ts : List Lexeme} (hm : NotPast n ((p <* atEnd) ts).furthest) :
    Records n e ((p <* atEnd) ts).furthest ↔
      Records n e (p ts).furthest ∨ ∃ a rest, (p ts).result = some (a, rest) ∧ rest ≠ [] ∧ rest.length = n ∧ e = .endOfInput := by
  rw [furthest_to_end] at hm ⊢
  rw [records_join hm]
  refine or_congr Iff.rfl ?_
  rcases (p ts).result with _ | ⟨a, _ | ⟨l, rest⟩⟩
  · simp [Records]
  · simp [Records, atEnd]
  · simp [Records, atEnd, eq_comm]

/-- The things expected behind `us` are the ways to go on with it: each stands for something, a
token that one of them stands for goes on with a reading, every token that does so is stood for by
one, and the end is if `us` can be all there is. -/
structure Continues (p : Parser α) (L : Readings α) (us : List Lexeme) (expected : List Expectation) : Prop where
  known : ∀ e ∈ expected, ∃ next, e.Covers next
  sound : ∀ l : Lexeme, (∃ e ∈ expected, e.Covers (some l.token)) → ∃ more a, L (us ++ l :: more) a
  complete : ∀ (l : Lexeme) more, ((p <* atEnd) (us ++ l :: more)).result ≠ none → ∃ e ∈ expected, e.Covers (some l.token)
  ends : (∃ e ∈ expected, e.Covers none) ↔ ((p <* atEnd) us).result ≠ none

namespace Candid

/-- Past the place where a parser waits, the next lexeme goes on with a reading. -/
theorem reading_of_past (rp : Reads p L) {l : Lexeme} (h : ¬(p (us ++ [l])).UpTo 1) :
    ∃ more a, L (us ++ l :: more) a := by
  by_contra hnone
  apply h
  constructor
  · intro m hm
    obtain ⟨w, rest, z, a, hw, hleft, hz⟩ := rp.viable hm
    by_contra hlt
    obtain rfl : rest = [] := List.length_eq_zero_iff.1 (by omega)
    rw [List.append_nil] at hw
    rw [← hw, List.append_assoc] at hz
    exact hnone ⟨z, a, hz⟩
  · intro a rest ha
    by_contra hlt
    obtain rfl : rest = [] := List.length_eq_zero_iff.1 (by omega)
    obtain ⟨w, hw, hz⟩ := rp.sound ha
    rw [List.append_nil] at hw
    exact hnone ⟨[], a, by rwa [hw]⟩

/-- Nothing is read to the end of `us ++ u` if a parser that has stopped behind `us` did not wait
for what `u` starts with. -/
theorem refused_of_not_awaits (h : Candid 0 p) (hup : (p (us ++ vs)).UpTo vs.length) {u : List Lexeme} (hu : u ≠ [])
    (hwait : ¬(p (us ++ vs)).Awaits vs.length (tokensOf u).head?) : ((p <* atEnd) (us ++ u)).result = none := by
  obtain ⟨hnone, hsome⟩ := h.carries (Nat.zero_le _) hup hwait
  rw [Option.eq_none_iff_forall_ne_some]
  intro x hx
  obtain ⟨hx, -⟩ := result_to_end.1 hx
  rcases hp : (p (us ++ vs)).result with _ | ⟨a, rest⟩
  · rw [hnone hp] at hx
    cases hx
  · obtain ⟨d, -, hd⟩ := hsome a rest hp
    rw [hx, Option.some.injEq, Prod.mk.injEq] at hd
    exact hu (List.append_eq_nil_iff.1 hd.2.symm).2

/-- A parser never waits for the end: it would have got there. -/
theorem not_awaits_end (h : Candid 0 p) (hup : (p (us ++ vs)).UpTo vs.length) : ¬(p (us ++ vs)).Awaits vs.length none := by
  intro hwait
  apply h.responds (Nat.zero_le _) hup (u := []) hwait
  exact ⟨fun m _ => Nat.zero_le _, fun a rest _ => Nat.zero_le _⟩

/-- What is left where a parser stops is left when it has read `us`, if that can be all there is. -/
theorem ends_iff (h : Candid 0 p) (hup : (p (us ++ vs)).UpTo vs.length) :
    ((p <* atEnd) us).result ≠ none ↔ ∃ a, (p (us ++ vs)).result = some (a, vs) := by
  obtain ⟨hnone, hsome⟩ := h.carries (Nat.zero_le _) hup (u := []) (h.not_awaits_end hup)
  rw [List.append_nil] at hnone hsome
  constructor
  · intro hne
    obtain ⟨x, hx⟩ := Option.ne_none_iff_exists'.1 hne
    obtain ⟨hx, -⟩ := result_to_end.1 hx
    rcases hp : (p (us ++ vs)).result with _ | ⟨a, rest⟩
    · rw [hnone hp] at hx
      cases hx
    · obtain ⟨d, rfl, hd⟩ := hsome a rest hp
      rw [hx, Option.some.injEq, Prod.mk.injEq, List.append_nil] at hd
      obtain rfl := hd.2
      exact ⟨a, rfl⟩
  · rintro ⟨a, ha⟩
    obtain ⟨d, hd, hd'⟩ := hsome a vs ha
    obtain rfl : d = [] := by simpa using hd
    rw [show ((p <* atEnd) us).result = some (a, []) from result_to_end.2 ⟨hd', rfl⟩]
    exact Option.some_ne_none _

/-- What is expected where reading to the end stops are the ways to go on from there. -/
theorem continues (h : Candid 0 p) (rp : Reads p L) {expected : List Expectation}
    (hn : ((p <* atEnd) (us ++ vs)).result = none) (hnotPast : NotPast vs.length ((p <* atEnd) (us ++ vs)).furthest)
    (hlisted : ∀ e, e ∈ expected ↔ Records vs.length e ((p <* atEnd) (us ++ vs)).furthest) : Continues p L us expected := by
  have hup := upTo_of_refused hn hnotPast
  simp only [records_to_end hnotPast] at hlisted
  constructor
  case known =>
    intro e he
    rcases (hlisted e).1 he with he | ⟨-, -, -, -, -, rfl⟩
    · exact h.known_at rp he
    · exact ⟨none, covers_endOfInput.2 rfl⟩
  case sound =>
    rintro l ⟨e, he, hcovers⟩
    rcases (hlisted e).1 he with he | ⟨-, -, -, -, -, rfl⟩
    · apply reading_of_past rp
      exact h.responds (Nat.zero_le _) hup (u := [l]) ⟨e, he, hcovers⟩
    · cases covers_endOfInput.1 hcovers
  case complete =>
    intro l more hread
    by_contra hnone
    apply hread
    apply h.refused_of_not_awaits hup (List.cons_ne_nil _ _)
    rintro ⟨e, he, hcovers⟩
    exact hnone ⟨e, (hlisted e).2 (.inl he), hcovers⟩
  case ends =>
    rw [h.ends_iff hup]
    constructor
    · rintro ⟨e, he, hcovers⟩
      rcases (hlisted e).1 he with he | ⟨a, rest, ha, -, hlength, -⟩
      · exact absurd ⟨e, he, hcovers⟩ (h.not_awaits_end hup)
      · obtain ⟨w, hw, -⟩ := rp.sound ha
        exact ⟨a, by rw [ha, (List.append_inj_right' hw hlength.symm)]⟩
    · rintro ⟨a, ha⟩
      have hvs : vs ≠ [] := by
        rintro rfl
        rw [result_seqLeft, ha] at hn
        cases hn
      exact ⟨_, (hlisted _).2 (.inr ⟨a, vs, ha, hvs, rfl, rfl⟩), covers_endOfInput.2 rfl⟩

/-- The list of the error of reading to the end is the list of ways to go on from there. -/
theorem readAll_error (h : Candid 0 p) (rp : Reads p L) {ts : List Lexeme} {stop : Span} {err : ParseError}
    (herr : (p <* atEnd).readAll ts stop = .error err) :
    ∃ us vs, ts = us ++ vs ∧ err.span = spanOf stop vs ∧ err.found = vs.head?.map (·.token) ∧ Continues p L us err.expected := by
  obtain ⟨hn, rfl⟩ := readAll_error_iff.1 herr
  obtain ⟨us, vs, m, rfl, hm, hleft, -⟩ := rp.refusedAt hn
  obtain ⟨hspan, hfound⟩ := errorAt_cut us vs stop hleft
  refine ⟨us, vs, rfl, by rw [hm, hspan], by rw [hm, hfound], h.continues rp hn ?_ ?_⟩
  · intro x hx
    obtain rfl : m = x := by rwa [hm, Option.some.injEq] at hx
    omega
  · intro e
    rw [hm, mem_expected_errorAt]
    simp [Records, hleft]

end Candid

end Ends

end Parley.Parser
