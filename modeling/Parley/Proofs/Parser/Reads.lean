/-
Parsers against the readings they stand for. A set of readings says which lexemes may be read and
into what; `Reads p L` says that parser `p` reads only what `L` has (`sound`), that a failure has
a mismatch behind it (`explained`), that everything before a mismatch begins a reading (`viable`),
and that nothing after the furthest mismatch has been looked at (`steady`). Each combinator has
one lemma; a recursive parser is the limit of its unfoldings.
-/
import Parley.Proofs.Parser.Run
import Mathlib.Data.List.Forall2
import Mathlib.Logic.Function.Iterate

namespace Parley

/-- Which lexemes can be read, and into what. -/
abbrev Readings (α : Type) : Type := List Lexeme → α → Prop

namespace Readings

variable {α β : Type}

def nothing (a : α) : Readings α := fun w b => w = [] ∧ b = a

def one (read : Lexeme → Option α) : Readings α := fun w a => ∃ l, w = [l] ∧ read l = some a

def seq (F : Readings (α → β)) (L : Readings α) : Readings β :=
  fun w b => ∃ u v f a, w = u ++ v ∧ F u f ∧ L v a ∧ b = f a

def before (L : Readings α) (M : Readings β) : Readings α := fun w a => ∃ u v b, w = u ++ v ∧ L u a ∧ M v b

def behind (L : Readings α) (M : Readings β) : Readings β := fun w b => ∃ u v a, w = u ++ v ∧ L u a ∧ M v b

def map (f : α → β) (L : Readings α) : Readings β := fun w b => ∃ a, L w a ∧ b = f a

def or (L M : Readings α) : Readings α := fun w a => L w a ∨ M w a

def star (L : Readings α) : Readings (List α) := fun w as => ∃ ws, w = ws.flatten ∧ List.Forall₂ L ws as

/-- A reading together with the span of all its lexemes. -/
def located (L : Readings α) : Readings (α × Span) := fun w x => L w x.1 ∧ x.2 = Parser.spanRead w []

/-- Every reading uses up a lexeme. -/
def Proper (L : Readings α) : Prop := ∀ w a, L w a → w ≠ []

theorem Proper.map {L : Readings α} (h : L.Proper) (f : α → β) : (L.map f).Proper := by
  rintro w b ⟨a, hw, -⟩
  exact h w a hw

theorem Proper.seq {F : Readings (α → β)} (h : F.Proper) (L : Readings α) : (F.seq L).Proper := by
  rintro w b ⟨u, v, f, a, rfl, hu, -, -⟩
  exact List.append_ne_nil_of_left_ne_nil (h u f hu) v

theorem Proper.behind {L : Readings α} (h : L.Proper) (M : Readings β) : (L.behind M).Proper := by
  rintro w b ⟨u, v, a, rfl, hu, -⟩
  exact List.append_ne_nil_of_left_ne_nil (h u a hu) v

end Readings

namespace Outcome

variable {α : Type}

/-- Nothing of the last `n` lexemes of the input has been looked at. -/
def Within (o : Outcome α) (n : Nat) : Prop :=
  (∀ m, o.furthest = some m → n < m.left) ∧ ∀ a rest, o.result = some (a, rest) → n ≤ rest.length

/-- An outcome before `r` comes about before `r'` as well. -/
def Carries (r r' : List Lexeme) (o o' : Outcome α) : Prop :=
  (o.result = none → o'.result = none) ∧
    ∀ a rest, o.result = some (a, rest) → ∃ d, rest = d ++ r ∧ o'.result = some (a, d ++ r')

end Outcome

namespace Parser

variable {α β : Type}

/-! ## Outcomes carried along -/

section Carried

variable {p q : Parser α} {f : Parser (α → β)} {ts ts' c d r r' : List Lexeme}

theorem carries_map (g : α → β) (h : (p ts).Carries r r' (p ts')) : ((g <$> p) ts).Carries r r' ((g <$> p) ts') := by
  obtain ⟨hnone, hsome⟩ := h
  refine ⟨fun hg => by simpa using hnone (by simpa using hg), fun b rest hb => ?_⟩
  simp only [result_map, Option.map_eq_some_iff, Prod.mk.injEq] at hb
  obtain ⟨⟨a, _⟩, ha, rfl, rfl⟩ := hb
  obtain ⟨d, rfl, ha'⟩ := hsome a _ ha
  exact ⟨d, rfl, by simp [ha']⟩

/-- The outcome of a sequence is that of its second part where the first one stops. -/
theorem carries_seq (hf : (f ts).Carries r r' (f ts'))
    (hp : ∀ g d, (f ts).result = some (g, d ++ r) → (p (d ++ r)).Carries r r' (p (d ++ r'))) :
    ((f <*> p) ts).Carries r r' ((f <*> p) ts') := by
  obtain ⟨hnone, hsome⟩ := hf
  rcases hg : (f ts).result with _ | ⟨g, us⟩
  · exact ⟨fun _ => by simp [hnone hg], fun b rest hb => by simp [hg] at hb⟩
  · obtain ⟨d, rfl, hg'⟩ := hsome g us hg
    obtain ⟨hnone', hsome'⟩ := hp g d hg
    refine ⟨fun h => ?_, fun b rest hb => ?_⟩
    · simp only [result_seq, hg, hg', Option.bind_some, Option.map_eq_none_iff] at h ⊢
      exact hnone' h
    · simp only [result_seq, hg, hg', Option.bind_some, Option.map_eq_some_iff, Prod.mk.injEq] at hb ⊢
      obtain ⟨⟨a, vs⟩, ha, rfl, rfl⟩ := hb
      obtain ⟨e, rfl, ha'⟩ := hsome' a vs ha
      exact ⟨e, rfl, ⟨a, e ++ r'⟩, ha', rfl, rfl⟩

theorem carries_orElse (hp : (p ts).Carries r r' (p ts')) (hq : (p ts).result = none → (q ts).Carries r r' (q ts')) :
    (orElse p q ts).Carries r r' (orElse p q ts') := by
  obtain ⟨hnone, hsome⟩ := hp
  rcases ha : (p ts).result with _ | ⟨a, us⟩
  · obtain ⟨hnone', hsome'⟩ := hq ha
    exact ⟨fun h => by simpa [hnone ha] using hnone' (by simpa [ha] using h),
      fun b rest hb => by simpa [hnone ha] using hsome' b rest (by simpa [ha] using hb)⟩
  · obtain ⟨d, rfl, ha'⟩ := hsome a us ha
    refine ⟨fun h => by simp [ha] at h, fun b rest hb => ?_⟩
    simp only [result_orElse, ha, Option.some_or, Option.some.injEq, Prod.mk.injEq] at hb
    obtain ⟨rfl, rfl⟩ := hb
    exact ⟨d, rfl, by simp [ha']⟩

theorem carries_many_of_none (h : (p (c ++ r)).result = none) (h' : (p (c ++ r')).result = none) :
    (many p (c ++ r)).Carries r r' (many p (c ++ r')) := by
  rw [many_of_none h, many_of_none h']
  refine ⟨nofun, fun as rest has => ?_⟩
  cases has
  exact ⟨c, rfl, rfl⟩

theorem carries_many_of_some {a : α} (h : (p (c ++ r)).result = some (a, d ++ r)) (h' : (p (c ++ r')).result = some (a, d ++ r'))
    (hlt : d.length < c.length) (hrest : (many p (d ++ r)).Carries r r' (many p (d ++ r'))) :
    (many p (c ++ r)).Carries r r' (many p (c ++ r')) := by
  obtain ⟨hnone, hsome⟩ := hrest
  rw [many_of_some h (by simpa using hlt), many_of_some h' (by simpa using hlt)]
  simp only [Outcome.Carries, Outcome.after, Outcome.map, Option.map_eq_none_iff, Option.map_eq_some_iff, Prod.mk.injEq]
  refine ⟨hnone, ?_⟩
  rintro as rest ⟨⟨bs, vs⟩, hb, rfl, rfl⟩
  obtain ⟨e, rfl, hb'⟩ := hsome bs vs hb
  exact ⟨e, rfl, ⟨bs, e ++ r'⟩, hb', rfl, rfl⟩

end Carried

/-- A parser reads nothing but the readings of a set, and its mismatches stand where one of these
readings breaks off. -/
structure Reads (p : Parser α) (L : Readings α) : Prop where
  inhabited : ∃ w a, L w a
  sound : ∀ {ts a rest}, (p ts).result = some (a, rest) → ∃ w, ts = w ++ rest ∧ L w a
  explained : ∀ {ts}, (p ts).result = none → (p ts).furthest ≠ none
  viable : ∀ {ts m}, (p ts).furthest = some m →
    ∃ w rest z a, ts = w ++ rest ∧ rest.length = m.left ∧ L (w ++ z) a
  steady : ∀ {c r}, (p (c ++ r)).Within r.length → ∀ r', (p (c ++ r)).Carries r r' (p (c ++ r'))

namespace Reads

variable {p q : Parser α} {L M : Readings α} {ts rest : List Lexeme} {a : α} {m : Mismatch} {n : Nat}

theorem length_le (h : Reads p L) (hp : (p ts).result = some (a, rest)) : rest.length ≤ ts.length := by
  obtain ⟨w, rfl, -⟩ := h.sound hp
  simp

theorem length_lt (h : Reads p L) (hL : L.Proper) (hp : (p ts).result = some (a, rest)) :
    rest.length < ts.length := by
  obtain ⟨w, rfl, hw⟩ := h.sound hp
  have := List.length_pos_of_ne_nil (hL w a hw)
  simp only [List.length_append]; omega

theorem left_le (h : Reads p L) (hp : (p ts).furthest = some m) : m.left ≤ ts.length := by
  obtain ⟨w, rest, -, -, rfl, hm, -⟩ := h.viable hp
  simp only [List.length_append]; omega

/-- What a parser does not look at is behind the place where it starts. -/
theorem le_length (h : Reads p L) (hfurthest : ∀ m, (p ts).furthest = some m → n ≤ m.left)
    (hresult : ∀ a rest, (p ts).result = some (a, rest) → n ≤ rest.length) : n ≤ ts.length := by
  rcases hp : (p ts).result with _ | ⟨a, rest⟩
  · obtain ⟨m, hm⟩ := Option.ne_none_iff_exists'.1 (h.explained hp)
    exact Nat.le_trans (hfurthest m hm) (h.left_le hm)
  · exact Nat.le_trans (hresult a rest hp) (h.length_le hp)

theorem mono (h : Reads p L) (hLM : ∀ w a, L w a → M w a) : Reads p M where
  inhabited := by obtain ⟨w, a, hw⟩ := h.inhabited; exact ⟨w, a, hLM _ _ hw⟩
  sound hp := by obtain ⟨w, ht, hw⟩ := h.sound hp; exact ⟨w, ht, hLM _ _ hw⟩
  explained := h.explained
  viable hp := by
    obtain ⟨w, rest, z, a, ht, hl, hw⟩ := h.viable hp
    exact ⟨w, rest, z, a, ht, hl, hLM _ _ hw⟩
  steady := h.steady

/-! ## Nothing and single lexemes -/

theorem nothing (a : α) : Reads (pure a : Parser α) (Readings.nothing a) where
  inhabited := ⟨[], a, rfl, rfl⟩
  sound hp := by
    simp only [result_pure, Option.some.injEq, Prod.mk.injEq] at hp
    obtain ⟨rfl, rfl⟩ := hp
    exact ⟨[], rfl, rfl, rfl⟩
  explained hp := by simp at hp
  viable hp := by simp at hp
  steady {c r} _ r' := by
    refine ⟨fun h => by simp at h, fun b rest h => ?_⟩
    simp only [result_pure, Option.some.injEq, Prod.mk.injEq] at h ⊢
    obtain ⟨rfl, rfl⟩ := h
    exact ⟨c, rfl, rfl, rfl⟩

theorem one (e : Expectation) {read : Lexeme → Option α} {l : Lexeme} (hl : read l = some a) :
    Reads (satisfy e read) (Readings.one read) where
  inhabited := ⟨[l], a, l, rfl, hl⟩
  sound {ts b rest} hp := by
    rcases ts with _ | ⟨t, ts⟩
    · simp at hp
    · simp only [result_satisfy_cons, Option.map_eq_some_iff, Prod.mk.injEq] at hp
      obtain ⟨b, hb, rfl, rfl⟩ := hp
      exact ⟨[t], rfl, t, rfl, hb⟩
  explained {ts} hp := by
    rcases ts with _ | ⟨t, ts⟩
    · simp [satisfy]
    · simp only [result_satisfy_cons, Option.map_eq_none_iff] at hp
      simp [satisfy, hp]
  viable {ts m} hp := by
    refine ⟨[], ts, [l], a, rfl, ?_, l, rfl, hl⟩
    rcases ts with _ | ⟨t, ts⟩
    · simp only [satisfy, Option.some.injEq] at hp; subst hp; rfl
    · unfold satisfy at hp
      rcases ht : read t with _ | b <;> simp only [ht] at hp
      · cases hp; rfl
      · cases hp
  steady {c r} hw r' := by
    rcases c with _ | ⟨t, c⟩
    · -- the parser looks at its first lexeme, so `r` cannot start here
      exfalso
      rcases r with _ | ⟨t, r⟩
      · have := hw.1 _ rfl; simp at this
      · rcases ht : read t with _ | b
        · have := hw.1 ⟨r.length + 1, [e]⟩ (by simp [satisfy, ht]); simp at this
        · have := hw.2 b r (by simp [ht]); simp only [List.length_cons] at this; omega
    · refine ⟨fun h => ?_, fun b rest h => ?_⟩
      · simpa using h
      · simp only [List.cons_append, result_satisfy_cons, Option.map_eq_some_iff, Prod.mk.injEq] at h ⊢
        obtain ⟨b, hb, rfl, rfl⟩ := h
        exact ⟨c, rfl, b, hb, rfl, rfl⟩

theorem token (t : Token) : Reads (token t) (Readings.one fun l => if l.token = t then some () else none) :=
  one _ (l := ⟨t, "", .nowhere⟩) (if_pos rfl)

/-! ## Sequences -/

theorem map (f : α → β) (h : Reads p L) : Reads (f <$> p) (L.map f) where
  inhabited := by obtain ⟨w, a, hw⟩ := h.inhabited; exact ⟨w, f a, a, hw, rfl⟩
  sound hp := by
    simp only [result_map, Option.map_eq_some_iff, Prod.mk.injEq] at hp
    obtain ⟨⟨a, rest⟩, hp, rfl, rfl⟩ := hp
    obtain ⟨w, ht, hw⟩ := h.sound hp
    exact ⟨w, ht, a, hw, rfl⟩
  explained hp := by
    rw [furthest_map]; exact h.explained (by simpa using hp)
  viable hp := by
    rw [furthest_map] at hp
    obtain ⟨w, rest, z, a, ht, hl, hw⟩ := h.viable hp
    exact ⟨w, rest, z, f a, ht, hl, a, hw, rfl⟩
  steady {c r} hw r' := by
    have hp : (p (c ++ r)).Within r.length :=
      ⟨hw.1, fun a rest ha => hw.2 (f a) rest (by simp [ha])⟩
    exact carries_map f (h.steady hp r')

variable {f : Parser (α → β)} {F : Readings (α → β)} {c r : List Lexeme}

/-- What a sequence has not looked at, its second part has not looked at either. -/
theorem within_second {g : α → β} {us : List Lexeme} (hg : (f (c ++ r)).result = some (g, us))
    (hw : ((f <*> p) (c ++ r)).Within r.length) : (p us).Within r.length := by
  obtain ⟨-, hsecond⟩ := Mismatch.lt_of_join fun m hm => hw.1 m ((furthest_seq f p _).trans hm)
  exact ⟨fun m hm => hsecond m (by simp [hg, hm]), fun a vs ha => hw.2 (g a) vs (by simp [hg, ha])⟩

/-- Nor has its first part, since the second one starts where this stops. -/
theorem within_first (hp : Reads p L) (hw : ((f <*> p) (c ++ r)).Within r.length) :
    (f (c ++ r)).Within r.length := by
  obtain ⟨hfirst, -⟩ := Mismatch.lt_of_join fun m hm => hw.1 m ((furthest_seq f p _).trans hm)
  refine ⟨hfirst, fun g us hg => ?_⟩
  obtain ⟨hfurthest, hresult⟩ := within_second hg hw
  exact hp.le_length (fun m hm => Nat.le_of_lt (hfurthest m hm)) hresult

theorem seq (hf : Reads f F) (hp : Reads p L) : Reads (f <*> p) (F.seq L) where
  inhabited := by
    obtain ⟨u, g, hu⟩ := hf.inhabited
    obtain ⟨v, a, hv⟩ := hp.inhabited
    exact ⟨u ++ v, g a, u, v, g, a, rfl, hu, hv, rfl⟩
  sound h := by
    simp only [result_seq, Option.bind_eq_some_iff, Option.map_eq_some_iff, Prod.mk.injEq] at h
    obtain ⟨⟨g, us⟩, hg, ⟨a, vs⟩, ha, rfl, rfl⟩ := h
    obtain ⟨u, rfl, hu⟩ := hf.sound hg
    obtain ⟨v, rfl, hv⟩ := hp.sound ha
    exact ⟨u ++ v, by simp, u, v, g, a, rfl, hu, hv, rfl⟩
  explained {ts} h := by
    rw [furthest_seq]
    apply Mismatch.join_ne_none
    rcases hg : (f ts).result with _ | ⟨g, us⟩
    · exact .inl (hf.explained hg)
    · right
      simp only [result_seq, hg, Option.bind_some, Option.map_eq_none_iff] at h
      simpa using hp.explained h
  viable {ts m} h := by
    rw [furthest_seq] at h
    rcases (Mismatch.join_some h).1 with ⟨x, hx, hm⟩ | ⟨x, hx, hm⟩
    · obtain ⟨w, rest, z, g, rfl, hl, hw⟩ := hf.viable hx
      obtain ⟨v, a, hv⟩ := hp.inhabited
      exact ⟨w, rest, z ++ v, g a, rfl, hl.trans hm, w ++ z, v, g, a, by simp, hw, hv, rfl⟩
    · rw [Option.bind_eq_some_iff] at hx
      obtain ⟨⟨g, us⟩, hg, hx⟩ := hx
      obtain ⟨u, rfl, hu⟩ := hf.sound hg
      obtain ⟨w, rest, z, a, rfl, hl, hw⟩ := hp.viable hx
      exact ⟨u ++ w, rest, z, g a, by simp, hl.trans hm, u, w ++ z, g, a, by simp, hu, hw, rfl⟩
  steady hw r' := carries_seq (hf.steady (within_first hp hw) r') fun _ _ hg => hp.steady (within_second hg hw) r'

theorem before {q : Parser β} {M : Readings β} (hp : Reads p L) (hq : Reads q M) :
    Reads (p <* q) (L.before M) := by
  rw [seqLeft_eq]
  refine ((hp.map _).seq hq).mono ?_
  rintro w a ⟨u, v, _, b, rfl, ⟨a, hu, rfl⟩, hv, rfl⟩
  exact ⟨u, v, b, rfl, hu, hv⟩

theorem behind {q : Parser β} {M : Readings β} (hp : Reads p L) (hq : Reads q M) :
    Reads (p *> q) (L.behind M) := by
  rw [seqRight_eq]
  refine ((hp.map _).seq hq).mono ?_
  rintro w b ⟨u, v, _, b, rfl, ⟨a, hu, rfl⟩, hv, rfl⟩
  exact ⟨u, v, a, rfl, hu, hv⟩

/-! ## Alternatives -/

theorem within_left (hw : (Parser.orElse p q ts).Within n) : (p ts).Within n := by
  obtain ⟨hfurthest, hresult⟩ := hw
  refine ⟨?_, fun a rest ha => hresult a rest (by simp [ha])⟩
  rw [furthest_orElse] at hfurthest
  split at hfurthest
  · exact (Mismatch.lt_of_join hfurthest).1
  · exact hfurthest

theorem within_right (hnone : (p ts).result = none) (hw : (Parser.orElse p q ts).Within n) : (q ts).Within n := by
  obtain ⟨hfurthest, hresult⟩ := hw
  rw [furthest_orElse, if_pos hnone] at hfurthest
  exact ⟨(Mismatch.lt_of_join hfurthest).2, fun a rest ha => hresult a rest (by simp [hnone, ha])⟩

theorem orElse (hp : Reads p L) (hq : Reads q M) : Reads (orElse p q) (L.or M) where
  inhabited := by obtain ⟨w, a, hw⟩ := hp.inhabited; exact ⟨w, a, .inl hw⟩
  sound {ts a rest} h := by
    rw [result_orElse, Option.or_eq_some_iff] at h
    rcases h with h | ⟨-, h⟩
    · obtain ⟨w, ht, hw⟩ := hp.sound h; exact ⟨w, ht, .inl hw⟩
    · obtain ⟨w, ht, hw⟩ := hq.sound h; exact ⟨w, ht, .inr hw⟩
  explained {ts} h := by
    rw [result_orElse, Option.or_eq_none_iff] at h
    rw [furthest_orElse, if_pos h.1]
    exact Mismatch.join_ne_none (.inl (hp.explained h.1))
  viable {ts m} h := by
    have hm : (∃ x, (p ts).furthest = some x ∧ x.left = m.left) ∨ ∃ x, (q ts).furthest = some x ∧ x.left = m.left := by
      rw [furthest_orElse] at h
      split at h
      · exact (Mismatch.join_some h).1
      · exact .inl ⟨m, h, rfl⟩
    rcases hm with ⟨x, hx, hm⟩ | ⟨x, hx, hm⟩
    · obtain ⟨w, rest, z, a, ht, hl, hw⟩ := hp.viable hx
      exact ⟨w, rest, z, a, ht, hl.trans hm, .inl hw⟩
    · obtain ⟨w, rest, z, a, ht, hl, hw⟩ := hq.viable hx
      exact ⟨w, rest, z, a, ht, hl.trans hm, .inr hw⟩
  steady hw r' := carries_orElse (hp.steady (within_left hw) r') fun hnone => hq.steady (within_right hnone hw) r'

theorem optional (hp : Reads p L) : Reads (optional p) ((L.map some).or (Readings.nothing none)) :=
  (hp.map some).orElse (nothing none)

/-! ## Repetition -/

/-- Repetition never fails. -/
theorem many_some (hp : Reads p L) (hL : L.Proper) (ts : List Lexeme) :
    ∃ as rest, (many p ts).result = some (as, rest) := by
  rcases h : (p ts).result with _ | ⟨a, us⟩
  · exact ⟨[], ts, by rw [many_of_none h]⟩
  · have hlt := hp.length_lt hL h
    obtain ⟨as, rest, hm⟩ := many_some hp hL us
    exact ⟨a :: as, rest, by rw [many_of_some h hlt]; simp [Outcome.after, Outcome.map, hm]⟩
termination_by ts.length

theorem many_sound (hp : Reads p L) (hL : L.Proper) {ts rest : List Lexeme} {as : List α}
    (h : (many p ts).result = some (as, rest)) : ∃ w, ts = w ++ rest ∧ L.star w as := by
  rcases ht : (p ts).result with _ | ⟨a, us⟩
  · rw [many_of_none ht] at h
    simp only [Option.some.injEq, Prod.mk.injEq] at h
    obtain ⟨rfl, rfl⟩ := h
    exact ⟨[], rfl, [], rfl, .nil⟩
  · have hlt := hp.length_lt hL ht
    rw [many_of_some ht hlt] at h
    simp only [Outcome.after, Outcome.map, Option.map_eq_some_iff, Prod.mk.injEq] at h
    obtain ⟨⟨as', _⟩, hm, rfl, rfl⟩ := h
    obtain ⟨u, rfl, hu⟩ := hp.sound ht
    obtain ⟨w, rfl, ws, rfl, hws⟩ := many_sound hp hL hm
    exact ⟨u ++ ws.flatten, by simp, u :: ws, rfl, .cons hu hws⟩
termination_by ts.length

theorem many_viable (hp : Reads p L) (hL : L.Proper) {ts : List Lexeme} {m : Mismatch}
    (h : (many p ts).furthest = some m) :
    ∃ w rest z as, ts = w ++ rest ∧ rest.length = m.left ∧ L.star (w ++ z) as := by
  rcases ht : (p ts).result with _ | ⟨a, us⟩
  · rw [many_of_none ht] at h
    obtain ⟨w, rest, z, a, ht, hl, hw⟩ := hp.viable h
    exact ⟨w, rest, z, [a], ht, hl, [w ++ z], by simp, .cons hw .nil⟩
  · have hlt := hp.length_lt hL ht
    rw [many_of_some ht hlt] at h
    rcases (Mismatch.join_some h).1 with ⟨x, hx, hm⟩ | ⟨x, hx, hm⟩
    · obtain ⟨w, rest, z, a, ht, hl, hw⟩ := hp.viable hx
      exact ⟨w, rest, z, [a], ht, hl.trans hm, [w ++ z], by simp, .cons hw .nil⟩
    · obtain ⟨u, rfl, hu⟩ := hp.sound ht
      obtain ⟨w, rest, z, as, rfl, hl, ws, hws, hall⟩ := many_viable hp hL hx
      exact ⟨u ++ w, rest, z, a :: as, by simp, hl.trans hm, u :: ws, by simp [hws], .cons hu hall⟩
termination_by ts.length

/-- What repetition has not looked at, neither its first item nor the others have looked at. -/
theorem within_many (hp : Reads p L) (hL : L.Proper) {us : List Lexeme} (ht : (p ts).result = some (a, us))
    (hw : (many p ts).Within n) : (p ts).Within n ∧ (many p us).Within n := by
  have hmany := many_of_some ht (hp.length_lt hL ht)
  obtain ⟨hfirst, hrest⟩ := Mismatch.lt_of_join fun m hm => hw.1 m ((congrArg _ hmany).trans hm)
  have hothers : ∀ as vs, (many p us).result = some (as, vs) → n ≤ vs.length :=
    fun as vs has => hw.2 (a :: as) vs (by rw [hmany]; simp [Outcome.after, Outcome.map, has])
  refine ⟨⟨hfirst, fun b rest hb => ?_⟩, hrest, hothers⟩
  rw [ht] at hb
  cases hb
  obtain ⟨as, vs, has⟩ := many_some hp hL us
  obtain ⟨w, rfl, -⟩ := many_sound hp hL has
  have := hothers as vs has
  rw [List.length_append]
  omega

theorem many_steady (hp : Reads p L) (hL : L.Proper) {c r : List Lexeme}
    (hw : (many p (c ++ r)).Within r.length) (r' : List Lexeme) :
    (many p (c ++ r)).Carries r r' (many p (c ++ r')) := by
  rcases ht : (p (c ++ r)).result with _ | ⟨a, us⟩
  · have hwp : (p (c ++ r)).Within r.length :=
      ⟨fun m hm => hw.1 m (by rw [many_of_none ht, hm]), fun a rest ha => by simp [ht] at ha⟩
    exact carries_many_of_none ht ((hp.steady hwp r').1 ht)
  · obtain ⟨hwp, hwm⟩ := within_many hp hL ht hw
    obtain ⟨d, rfl, ht'⟩ := (hp.steady hwp r').2 a us ht
    -- the other items start behind `d`, which is shorter than `c`
    have hdc : d.length < c.length := by simpa using hp.length_lt hL ht
    exact carries_many_of_some ht ht' hdc (many_steady hp hL hwm r')
termination_by c.length

theorem many (hp : Reads p L) (hL : L.Proper) : Reads (many p) L.star where
  inhabited := ⟨[], [], [], rfl, .nil⟩
  sound := many_sound hp hL
  explained {ts} h := by
    obtain ⟨as, rest, hs⟩ := many_some hp hL ts
    simp [hs] at h
  viable := many_viable hp hL
  steady := many_steady hp hL

/-! ## Labels and spans -/

theorem label (c : Construct) (hp : Reads p L) : Reads (label c p) L where
  inhabited := hp.inhabited
  sound h := hp.sound h
  explained h hn := hp.explained h (label_eq_none.1 hn)
  viable h := by
    obtain ⟨x, hx, hm⟩ := left_label h
    obtain ⟨w, rest, z, a, ht, hl, hw⟩ := hp.viable hx
    exact ⟨w, rest, z, a, ht, hl.trans hm, hw⟩
  steady {c' r} hw r' := by
    refine hp.steady ⟨fun m hm => ?_, hw.2⟩ r'
    obtain ⟨x, hx⟩ := Option.ne_none_iff_exists'.1
      (fun hn => by simp [label_eq_none.1 hn] at hm : (Parser.label c p (c' ++ r)).furthest ≠ none)
    obtain ⟨y, hy, hyx⟩ := left_label hx
    rw [hm] at hy; cases hy
    have := hw.1 x hx; omega

/-- Under a label a parser reads what the labelled parser reads. -/
theorem of_label {c : Construct} (hp : Reads (Parser.label c p) L) : Reads p L where
  inhabited := hp.inhabited
  sound h := hp.sound h
  explained h hn := hp.explained h (label_eq_none.2 hn)
  viable {ts m} h := by
    have hne : (Parser.label c p ts).furthest ≠ none := fun hn => by rw [label_eq_none.1 hn] at h; cases h
    obtain ⟨x, hx⟩ := Option.ne_none_iff_exists'.1 hne
    obtain ⟨y, hy, hyx⟩ := left_label hx
    obtain rfl : m = y := by rwa [h, Option.some.injEq] at hy
    obtain ⟨w, rest, z, a, ht, hl, hw⟩ := hp.viable hx
    exact ⟨w, rest, z, a, ht, hl.trans hyx.symm, hw⟩
  steady {c' r} hw r' := by
    refine hp.steady ⟨fun m hm => ?_, hw.2⟩ r'
    obtain ⟨x, hx, hxm⟩ := left_label hm
    have := hw.1 x hx
    omega

/-- The span read does not depend on what is behind it, so it is carried along. -/
theorem carries_located (hp : Reads p L) {c r r' : List Lexeme} (h : (p (c ++ r)).Carries r r' (p (c ++ r'))) :
    (Parser.located p (c ++ r)).Carries r r' (Parser.located p (c ++ r')) := by
  obtain ⟨hnone, hsome⟩ := h
  refine ⟨fun h => by simpa using hnone (by simpa using h), fun x rest hx => ?_⟩
  simp only [result_located, Option.map_eq_some_iff, Prod.mk.injEq] at hx
  obtain ⟨⟨a, _⟩, ha, rfl, rfl⟩ := hx
  obtain ⟨d, rfl, ha'⟩ := hsome a _ ha
  obtain ⟨w, hcw, -⟩ := hp.sound ha
  rw [← List.append_assoc, List.append_cancel_right_eq] at hcw
  subst hcw
  refine ⟨d, rfl, ?_⟩
  rw [result_located, ha', Option.map_some, List.append_assoc, List.append_assoc, spanRead_append, spanRead_append]

theorem located (hp : Reads p L) : Reads (located p) L.located where
  inhabited := by obtain ⟨w, a, hw⟩ := hp.inhabited; exact ⟨w, (a, spanRead w []), hw, rfl⟩
  sound h := by
    simp only [result_located, Option.map_eq_some_iff, Prod.mk.injEq] at h
    obtain ⟨⟨a, rest⟩, ha, rfl, rfl⟩ := h
    obtain ⟨w, rfl, hw⟩ := hp.sound ha
    exact ⟨w, rfl, hw, spanRead_append w rest⟩
  explained h := by
    rw [furthest_located]; exact hp.explained (by simpa using h)
  viable h := by
    rw [furthest_located] at h
    obtain ⟨w, rest, z, a, ht, hl, hw⟩ := hp.viable h
    exact ⟨w, rest, z, (a, spanRead (w ++ z) []), ht, hl, hw, rfl⟩
  steady {c r} hw r' := by
    have hwp : (p (c ++ r)).Within r.length :=
      ⟨fun m hm => hw.1 m (by rw [furthest_located, hm]), fun a rest ha => hw.2 (a, spanRead (c ++ r) rest) rest (by simp [ha])⟩
    exact hp.carries_located (hp.steady hwp r')

end Reads

/-! ## Reading to the end -/

section Ends

variable {p : Parser α} {L : Readings α}

/-- A parser reads all lexemes if it leaves none. -/
theorem result_to_end {ts : List Lexeme} {x : α × List Lexeme} :
    ((p <* atEnd) ts).result = some x ↔ (p ts).result = some (x.1, []) ∧ x.2 = [] := by
  rw [result_seqLeft, Option.bind_eq_some_iff]
  constructor
  · rintro ⟨⟨a, rest⟩, hp, h⟩
    rcases rest with _ | ⟨t, rest⟩
    · simp only [result_atEnd_nil, Option.map_some, Option.some.injEq] at h
      subst h; exact ⟨hp, rfl⟩
    · simp at h
  · rintro ⟨hp, h⟩
    exact ⟨(x.1, []), hp, by rw [result_atEnd_nil, Option.map_some, ← h]⟩

theorem furthest_to_end (p : Parser α) (ts : List Lexeme) :
    ((p <* atEnd) ts).furthest =
      Mismatch.join (p ts).furthest ((p ts).result.bind fun x => (atEnd x.2).furthest) := by
  rw [seqLeft_eq, furthest_seq, furthest_map, result_map]
  cases (p ts).result <;> rfl

/-- Everything before the furthest mismatch of a parser that has to reach the end begins a
reading. -/
theorem Reads.viable_to_end (h : Reads p L) {ts : List Lexeme} {m : Mismatch}
    (hm : ((p <* atEnd) ts).furthest = some m) :
    ∃ w rest z a, ts = w ++ rest ∧ rest.length = m.left ∧ L (w ++ z) a := by
  rw [furthest_to_end] at hm
  rcases (Mismatch.join_some hm).1 with ⟨x, hx, hl⟩ | ⟨x, hx, hl⟩
  · obtain ⟨w, rest, z, a, ht, hr, hw⟩ := h.viable hx
    exact ⟨w, rest, z, a, ht, hr.trans hl, hw⟩
  · rw [Option.bind_eq_some_iff] at hx
    obtain ⟨⟨a, us⟩, ha, hx⟩ := hx
    obtain ⟨w, rfl, hw⟩ := h.sound ha
    rcases us with _ | ⟨t, us⟩
    · simp [atEnd] at hx
    · simp only [atEnd, Option.some.injEq] at hx
      subst hx
      exact ⟨w, t :: us, [], a, rfl, hl, by rwa [List.append_nil]⟩

theorem Reads.explained_to_end (h : Reads p L) {ts : List Lexeme} (hn : ((p <* atEnd) ts).result = none) :
    ((p <* atEnd) ts).furthest ≠ none := by
  rw [furthest_to_end]
  apply Mismatch.join_ne_none
  rcases hp : (p ts).result with _ | ⟨a, rest⟩
  · exact .inl (h.explained hp)
  · rcases rest with _ | ⟨t, rest⟩
    · rw [result_seqLeft, hp] at hn; simp at hn
    · right; simp [atEnd]

/-- A parser that does not reach the end still does not reach it when what follows its furthest
mismatch is replaced. -/
theorem Reads.stays_refused (h : Reads p L) {c r : List Lexeme} {m : Mismatch}
    (hn : ((p <* atEnd) (c ++ r)).result = none) (hm : ((p <* atEnd) (c ++ r)).furthest = some m)
    (hlt : r.length < m.left) (r' : List Lexeme) : ((p <* atEnd) (c ++ r')).result = none := by
  rw [furthest_to_end] at hm
  have hj := (Mismatch.join_some hm).2
  rw [Option.eq_none_iff_forall_ne_some]
  rintro ⟨a, rest⟩ hs
  obtain ⟨hs, -⟩ := result_to_end.1 hs
  simp only at hs
  rcases hp : (p (c ++ r)).result with _ | ⟨b, us⟩
  · have hw : (p (c ++ r)).Within r.length :=
      ⟨fun x hx => by have := hj.1 x hx; omega, fun a rest ha => by simp [hp] at ha⟩
    rw [(h.steady hw r').1 hp] at hs; cases hs
  · rcases us with _ | ⟨t, us⟩
    · rw [result_seqLeft, hp] at hn; simp at hn
    · -- the mismatch at the end is one of those joined, so `t` stands before `r`
      have hle := hj.2 ⟨us.length + 1, [.endOfInput]⟩ (by rw [hp]; rfl)
      have hw : (p (c ++ r)).Within r.length := by
        refine ⟨fun x hx => by have := hj.1 x hx; omega, fun a rest ha => ?_⟩
        rw [hp] at ha; cases ha
        simp only [List.length_cons] at hle ⊢; omega
      obtain ⟨d, hd, hs'⟩ := (h.steady hw r').2 b _ hp
      rw [hs] at hs'
      simp only [Option.some.injEq, Prod.mk.injEq, List.nil_eq, List.append_eq_nil_iff] at hs'
      obtain ⟨-, rfl, -⟩ := hs'
      have := congrArg List.length hd
      simp only [List.length_cons, List.nil_append] at this hle; omega

end Ends

end Parser

end Parley
