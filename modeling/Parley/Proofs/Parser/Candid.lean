/-
Parsers that are candid about what they wait for. An entry of a list of things expected stands for
some tokens, or for the end of the text. A parser is candid if the entries at the furthest mismatch
are all there is to know about the place: with a token that none of them stands for it goes no
other way than it went, and with any other it gets past the place. A label hides what was expected
where it starts, so a labelled parser is candid there only if the label says the same.
-/
import Parley.Proofs.Parser.Blind

namespace Parley

/-! ## Entries -/

/-- The constructs that a fixed token can begin, by the names that messages give them. -/
def Keyword.constructs : Keyword → List String
  | role => ["role"]
  | transaction => ["transaction"]
  | actor | message | function | entry | block => ["declaration"]
  | send | call | goto => ["statement"]
  | yes | no => ["expression", "condition"]
  | when => []

def Symbol.constructs : Symbol → List String
  | openParen => ["expression", "condition"]
  | not => ["condition"]
  | equal | notEqual | less | greater | atMost | atLeast => ["something else"]
  | _ => []

/-- The entries that stand for a token: its spelling if it is a fixed one, and what it can begin. -/
def Token.entries : Token → List String
  | keyword word => ("`" ++ word.spelling ++ "`") :: word.constructs
  | symbol mark => ("`" ++ mark.spelling ++ "`") :: mark.constructs
  | integer _ => ["expression", "condition"]
  | string _ => ["string", "expression", "condition"]
  | name _ => ["identifier", "type", "field", "parameter", "expression", "condition"]

/-- The entries that stand for what comes next, a token or the end. -/
def entriesFor (next : Option Token) : List String := next.elim ["end of input"] Token.entries

def Expectation.Covers (e : Expectation) (next : Option Token) : Prop := e.describe ∈ entriesFor next

/-! ## Mismatches at a place -/

namespace Mismatch

/-- There is no mismatch past the place where the last `n` lexemes start. -/
def NotPast (n : Nat) (m : Option Mismatch) : Prop := ∀ x, m = some x → n ≤ x.left

/-- The mismatch is where the last `n` lexemes start, and there `e` is expected. -/
def Records (n : Nat) (e : Expectation) (m : Option Mismatch) : Prop := ∃ x, m = some x ∧ x.left = n ∧ e ∈ x.expected

variable {a b : Option Mismatch} {n : Nat} {e : Expectation}

theorem notPast_join : NotPast n (join a b) ↔ NotPast n a ∧ NotPast n b := by
  rcases a with _ | a
  · simp [NotPast]
  rcases b with _ | b
  · simp [NotPast]
  simp only [NotPast, join, Option.some.injEq, forall_eq']
  split
  · simp only [Option.some.injEq, forall_eq']; omega
  · split
    · simp only [Option.some.injEq, forall_eq']; omega
    · simp only [Option.some.injEq, forall_eq']; omega

/-- What is expected at the joined mismatch is expected at one of the two. -/
theorem records_of_join (h : Records n e (join a b)) : Records n e a ∨ Records n e b := by
  rcases a with _ | a
  · rw [join_none_left] at h
    exact .inr h
  rcases b with _ | b
  · exact .inl h
  simp only [Records, join, Option.some.injEq, exists_eq_left'] at h ⊢
  split at h
  · exact .inl (by simpa using h)
  · split at h
    · exact .inr (by simpa using h)
    · simp only [Option.some.injEq, exists_eq_left', List.mem_append] at h
      obtain ⟨hn, he⟩ := h
      exact he.imp (fun he => ⟨hn, he⟩) fun he => ⟨by omega, he⟩

/-- Where two mismatches meet, all that either expects is expected. -/
theorem records_join (h : NotPast n (join a b)) : Records n e (join a b) ↔ Records n e a ∨ Records n e b := by
  rw [notPast_join] at h
  rcases a with _ | a
  · simp [Records]
  rcases b with _ | b
  · simp [Records]
  have ha := h.1 a rfl
  have hb := h.2 b rfl
  simp only [Records, join, Option.some.injEq, exists_eq_left']
  split
  · simp only [Option.some.injEq, exists_eq_left']
    exact ⟨.inl, fun hab => hab.elim id fun h => absurd h.1 (by omega)⟩
  · split
    · simp only [Option.some.injEq, exists_eq_left']
      exact ⟨.inr, fun hab => hab.elim (fun h => absurd h.1 (by omega)) id⟩
    · have hsame : a.left = b.left := by omega
      simp only [Option.some.injEq, exists_eq_left', List.mem_append, hsame, and_or_left]

end Mismatch

namespace Outcome

open Mismatch

variable {α : Type}

/-- Nothing has been looked at past the first of the last `n` lexemes. -/
structure UpTo (o : Outcome α) (n : Nat) : Prop where
  furthest : NotPast n o.furthest
  result : ∀ a rest, o.result = some (a, rest) → n ≤ rest.length

/-- Where the last `n` lexemes start, something is expected that stands for `next`. -/
def Awaits (o : Outcome α) (n : Nat) (next : Option Token) : Prop := ∃ e, Records n e o.furthest ∧ e.Covers next

theorem upTo_of_none {o : Outcome α} {n : Nat} (hnone : o.result = none) (h : NotPast n o.furthest) : o.UpTo n := by
  refine ⟨h, fun a rest ha => ?_⟩
  rw [hnone] at ha
  cases ha

end Outcome

namespace Parser

open Mismatch

variable {α β : Type}

/-- What a parser expects at its furthest mismatch tells which way it goes from there; where it has
used up less than `k` lexemes it may keep something back. -/
structure Candid (k : Nat) (p : Parser α) : Prop where
  carries : ∀ {c r}, k ≤ c.length → (p (c ++ r)).UpTo r.length → ∀ {u}, ¬(p (c ++ r)).Awaits r.length (tokensOf u).head? →
    (p (c ++ r)).Carries r u (p (c ++ u))
  responds : ∀ {c r}, k ≤ c.length → (p (c ++ r)).UpTo r.length → ∀ {u}, (p (c ++ r)).Awaits r.length (tokensOf u).head? →
    ¬(p (c ++ u)).UpTo u.length
  known : ∀ {ts n e}, n + k ≤ ts.length → Records n e (p ts).furthest → ∃ next, e.Covers next

/-- A parser gets past a token that it starts with. -/
def Takes (p : Parser α) (t : Token) : Prop := ∀ l us, l.token = t → ¬(p (l :: us)).UpTo (us.length + 1)

namespace Candid

variable {p q : Parser α} {L : Readings α} {k : Nat}

theorem mono {k' : Nat} (h : Candid k p) (hk : k ≤ k') : Candid k' p where
  carries hc := h.carries (Nat.le_trans hk hc)
  responds hc := h.responds (Nat.le_trans hk hc)
  known hn := h.known (by omega)

/-- What a parser expects stands for something, wherever its furthest mismatch is. -/
theorem known_at (h : Candid 0 p) (hp : Reads p L) {ts : List Lexeme} {n : Nat} {e : Expectation}
    (he : Records n e (p ts).furthest) : ∃ next, e.Covers next := by
  refine h.known ?_ he
  obtain ⟨m, hm, rfl, -⟩ := he
  exact hp.left_le hm

/-! ### Nothing and single lexemes -/

theorem pure (a : α) : Candid k (Pure.pure a : Parser α) where
  carries {c r} _ _ u _ := by
    refine ⟨nofun, ?_⟩
    rintro b rest h
    cases h
    exact ⟨c, rfl, rfl⟩
  responds {c r} _ _ u := by
    rintro ⟨e, ⟨m, hm, -⟩, -⟩
    cases hm
  known {ts n e} _ := by
    rintro ⟨m, hm, -⟩
    cases hm

/-- The only mismatch of a parser of one lexeme is where it starts. -/
theorem records_satisfy {e e' : Expectation} {read : Lexeme → Option α} {ts : List Lexeme} {n : Nat}
    (h : Records n e' (satisfy e read ts).furthest) : n = ts.length ∧ e' = e := by
  obtain ⟨m, hm, rfl, he'⟩ := h
  unfold satisfy at hm
  split at hm
  · cases hm
    exact ⟨rfl, List.mem_singleton.1 he'⟩
  · split at hm
    · cases hm
    · cases hm
      exact ⟨rfl, List.mem_singleton.1 he'⟩

theorem satisfy_behind (e : Expectation) (read : Lexeme → Option α) : Candid 1 (satisfy e read) where
  carries {c r} hc _ u _ := by
    obtain ⟨t, c, rfl⟩ := List.exists_cons_of_length_pos hc
    constructor
    · simp
    · intro a rest ha
      simp only [List.cons_append, result_satisfy_cons, Option.map_eq_some_iff, Prod.mk.injEq] at ha ⊢
      obtain ⟨a, hread, rfl, rfl⟩ := ha
      exact ⟨c, rfl, a, hread, rfl, rfl⟩
  responds {c r} hc _ u := by
    rintro ⟨e', he', -⟩
    have hn := (records_satisfy he').1
    rw [List.length_append] at hn
    omega
  known {ts n e'} hn he' := by
    have := (records_satisfy he').1
    omega

/-- A lexeme that is read is used up, so a parser of one that has not looked past its start has been
refused there. -/
theorem refused_of_upTo_satisfy {e : Expectation} {read : Lexeme → Option α} {ts : List Lexeme}
    (hup : (Parser.satisfy e read ts).UpTo ts.length) :
    (Parser.satisfy e read ts).result = none ∧ Records ts.length e (Parser.satisfy e read ts).furthest := by
  rcases ts with _ | ⟨t, ts⟩
  · exact ⟨rfl, _, rfl, rfl, List.mem_singleton_self e⟩
  · unfold Parser.satisfy at hup ⊢
    cases ht : read t with
    | none => simp [ht, Records]
    | some a =>
      simp only [ht] at hup
      have := hup.result a ts rfl
      simp only [List.length_cons] at this
      omega

/-- A parser of one lexeme is candid if the thing it expects stands for just what it reads. -/
theorem satisfy {e : Expectation} {read : Lexeme → Option α} (hread : ∀ l, (read l).isSome ↔ e.Covers (some l.token))
    (hend : ¬e.Covers none) (hknown : ∃ t, e.Covers (some t)) : Candid 0 (satisfy e read) where
  carries {c r} _ hup u hu := by
    rcases c with _ | ⟨t, c⟩
    · rw [List.nil_append] at hup hu ⊢
      obtain ⟨hnone, hlisted⟩ := refused_of_upTo_satisfy hup
      refine ⟨fun _ => ?_, fun a rest ha => by rw [hnone] at ha; cases ha⟩
      rcases u with _ | ⟨l, u⟩
      · rfl
      · have hl : read l = none := by
          rw [← Option.not_isSome_iff_eq_none, hread]
          exact fun hcovers => hu ⟨e, hlisted, hcovers⟩
        simp [hl]
    · exact (satisfy_behind e read).carries (by simp) hup hu
  responds {c r} _ hup u := by
    rintro ⟨e', he', hcovers⟩ hup'
    obtain ⟨hn, rfl⟩ := records_satisfy he'
    rw [List.length_append] at hn
    obtain rfl : c = [] := List.length_eq_zero_iff.1 (by omega)
    rw [List.nil_append] at hup'
    rcases u with _ | ⟨l, u⟩
    · exact hend hcovers
    · obtain ⟨a, ha⟩ := Option.isSome_iff_exists.1 ((hread l).2 hcovers)
      have := hup'.result a u (by simp [ha])
      simp only [List.length_cons] at this
      omega
  known {ts n e'} _ he' := by
    obtain ⟨t, ht⟩ := hknown
    rw [(records_satisfy he').2]
    exact ⟨some t, ht⟩

/-! ### Sequences -/

theorem upTo_map {f : α → β} {ts : List Lexeme} {n : Nat} : ((f <$> p) ts).UpTo n ↔ (p ts).UpTo n := by
  constructor
  · exact fun hup => ⟨hup.furthest, fun a rest ha => hup.result (f a) rest (by simp [ha])⟩
  · refine fun hup => ⟨hup.furthest, fun b rest hb => ?_⟩
    simp only [result_map, Option.map_eq_some_iff, Prod.mk.injEq] at hb
    obtain ⟨⟨a, _⟩, ha, -, rfl⟩ := hb
    exact hup.result a _ ha

theorem map (f : α → β) (h : Candid k p) : Candid k (f <$> p) where
  carries hc hup _ hu := carries_map f (h.carries hc (upTo_map.1 hup) hu)
  responds hc hup _ hu hup' := h.responds hc (upTo_map.1 hup) hu (upTo_map.1 hup')
  known := h.known

section Seq

variable {f : Parser (α → β)} {F : Readings (α → β)} {ts : List Lexeme} {n : Nat}

/-- What a sequence has not looked at, its second part has not looked at either. -/
theorem upTo_second {g : α → β} {us : List Lexeme} (hg : (f ts).result = some (g, us))
    (h : ((f <*> p) ts).UpTo n) : (p us).UpTo n := by
  have hfurthest := h.furthest
  rw [furthest_seq, notPast_join, hg] at hfurthest
  exact ⟨hfurthest.2, fun a vs ha => h.result (g a) vs (by simp [hg, ha])⟩

theorem upTo_first (hp : Reads p L) (h : ((f <*> p) ts).UpTo n) : (f ts).UpTo n := by
  have hfurthest := h.furthest
  rw [furthest_seq, notPast_join] at hfurthest
  refine ⟨hfurthest.1, fun g us hg => ?_⟩
  have hsecond := upTo_second hg h
  exact hp.le_length hsecond.furthest hsecond.result

/-- A sequence waits for what its parts wait for. -/
theorem awaits_seq {next : Option Token} (h : ((f <*> p) ts).UpTo n) : ((f <*> p) ts).Awaits n next ↔
    (f ts).Awaits n next ∨ ∃ g us, (f ts).result = some (g, us) ∧ (p us).Awaits n next := by
  have hfurthest := h.furthest
  rw [furthest_seq] at hfurthest
  simp only [Outcome.Awaits, furthest_seq, records_join hfurthest, or_and_right, exists_or]
  refine or_congr Iff.rfl ?_
  rcases (f ts).result with _ | ⟨g, us⟩
  · simp [Records]
  · simp

theorem seq (hf : Candid k f) (hp : Candid 0 p) (rp : Reads p L) : Candid k (f <*> p) where
  carries hc hup _ hu := by
    rw [awaits_seq hup, not_or] at hu
    refine carries_seq (hf.carries hc (upTo_first rp hup) hu.1) fun g d hg => ?_
    exact hp.carries (Nat.zero_le _) (upTo_second hg hup) fun h => hu.2 ⟨g, _, hg, h⟩
  responds {c r} hc hup u hu hup' := by
    by_cases hfirst : (f (c ++ r)).Awaits r.length (tokensOf u).head?
    · exact hf.responds hc (upTo_first rp hup) hfirst (upTo_first rp hup')
    · -- the first part goes the same way, and the second part waits where it has stopped
      obtain ⟨g, us, hg, hsecond⟩ := ((awaits_seq hup).1 hu).resolve_left hfirst
      obtain ⟨d, rfl, hg'⟩ := (hf.carries hc (upTo_first rp hup) hfirst).2 g us hg
      exact hp.responds (Nat.zero_le _) (upTo_second hg hup) hsecond (upTo_second hg' hup')
  known {ts n e} hn he := by
    rw [furthest_seq] at he
    rcases records_of_join he with he | he
    · exact hf.known hn he
    · rcases hg : (f ts).result with _ | ⟨g, us⟩
      · obtain ⟨m, hm, -⟩ := he
        rw [hg] at hm
        cases hm
      · rw [hg] at he
        have hle : n ≤ us.length := by
          obtain ⟨m, hm, rfl, -⟩ := he
          exact rp.left_le hm
        have he : Records n e (p us).furthest := he
        exact hp.known hle he

theorem before {q : Parser β} {M : Readings β} (hp : Candid k p) (hq : Candid 0 q) (rq : Reads q M) :
    Candid k (p <* q) := by
  rw [seqLeft_eq]
  exact (hp.map _).seq hq rq

theorem behind {q : Parser β} {M : Readings β} (hp : Candid k p) (hq : Candid 0 q) (rq : Reads q M) :
    Candid k (p *> q) := by
  rw [seqRight_eq]
  exact (hp.map _).seq hq rq

end Seq

/-! ### Alternatives -/

section OrElse

variable {ts : List Lexeme} {n : Nat}

theorem upTo_left (h : (Parser.orElse p q ts).UpTo n) : (p ts).UpTo n := by
  have hfurthest := h.furthest
  rw [furthest_orElse] at hfurthest
  split at hfurthest
  · rename_i hp
    exact Outcome.upTo_of_none hp (notPast_join.1 hfurthest).1
  · exact ⟨hfurthest, fun a rest ha => h.result a rest (by simp [ha])⟩

theorem upTo_right (hp : (p ts).result = none) (h : (Parser.orElse p q ts).UpTo n) : (q ts).UpTo n := by
  have hfurthest := h.furthest
  rw [furthest_orElse, if_pos hp, notPast_join] at hfurthest
  exact ⟨hfurthest.2, fun a rest ha => h.result a rest (by simp [hp, ha])⟩

/-- The second alternative is waited for if the first one has been refused. -/
theorem awaits_orElse {next : Option Token} (h : (Parser.orElse p q ts).UpTo n) : (Parser.orElse p q ts).Awaits n next ↔
    (p ts).Awaits n next ∨ (p ts).result = none ∧ (q ts).Awaits n next := by
  have hfurthest := h.furthest
  rw [furthest_orElse] at hfurthest
  simp only [Outcome.Awaits, furthest_orElse]
  split
  · rename_i hp
    rw [if_pos hp] at hfurthest
    simp only [records_join hfurthest, or_and_right, exists_or, hp, true_and]
  · rename_i hp
    simp only [hp, false_and, or_false]

theorem orElse (hp : Candid k p) (hq : Candid k q) : Candid k (orElse p q) where
  carries hc hup _ hu := by
    rw [awaits_orElse hup, not_or, not_and] at hu
    refine carries_orElse (hp.carries hc (upTo_left hup) hu.1) fun hnone => ?_
    exact hq.carries hc (upTo_right hnone hup) (hu.2 hnone)
  responds {c r} hc hup u hu hup' := by
    by_cases hfirst : (p (c ++ r)).Awaits r.length (tokensOf u).head?
    · exact hp.responds hc (upTo_left hup) hfirst (upTo_left hup')
    · obtain ⟨hr, hsecond⟩ := ((awaits_orElse hup).1 hu).resolve_left hfirst
      have hn := (hp.carries hc (upTo_left hup) hfirst).1 hr
      exact hq.responds hc (upTo_right hr hup) hsecond (upTo_right hn hup')
  known {ts n e} hn he := by
    rw [furthest_orElse] at he
    split at he
    · exact (records_of_join he).elim (hp.known hn) (hq.known hn)
    · exact hp.known hn he

theorem optional (hp : Candid k p) : Candid k (optional p) := (hp.map some).orElse (pure none)

end OrElse

/-! ### Repetition -/

section Many

variable {ts rest : List Lexeme} {a : α} {n : Nat}

theorem furthest_many (h : (p ts).result = some (a, rest)) (hlt : rest.length < ts.length) :
    (Parser.many p ts).furthest = join (p ts).furthest (Parser.many p rest).furthest := by
  rw [many_of_some h hlt]
  rfl

/-- Repetition that has not looked past a place has not done so at its first item, nor behind it. -/
theorem upTo_many (hp : Reads p L) (hL : L.Proper) (h : (p ts).result = some (a, rest)) (hlt : rest.length < ts.length)
    (hup : (Parser.many p ts).UpTo n) : (p ts).UpTo n ∧ (Parser.many p rest).UpTo n := by
  have hfurthest := hup.furthest
  rw [furthest_many h hlt, notPast_join] at hfurthest
  have hrest : ∀ as vs, (Parser.many p rest).result = some (as, vs) → n ≤ vs.length := by
    intro as vs has
    exact hup.result (a :: as) vs (by rw [many_of_some h hlt]; simp [Outcome.after, Outcome.map, has])
  refine ⟨⟨hfurthest.1, fun b us hb => ?_⟩, hfurthest.2, hrest⟩
  rw [h] at hb
  cases hb
  exact (hp.many hL).le_length hfurthest.2 hrest

/-- Repetition waits for what its first item waits for, or for what the other items do. -/
theorem awaits_many (h : (p ts).result = some (a, rest)) (hlt : rest.length < ts.length)
    (hup : (Parser.many p ts).UpTo n) {next : Option Token} :
    (Parser.many p ts).Awaits n next ↔ (p ts).Awaits n next ∨ (Parser.many p rest).Awaits n next := by
  have hfurthest := hup.furthest
  rw [furthest_many h hlt] at hfurthest
  simp only [Outcome.Awaits, furthest_many h hlt, records_join hfurthest, or_and_right, exists_or]

theorem carries_many (h : Candid 0 p) (hp : Reads p L) (hL : L.Proper) {c r : List Lexeme}
    (hup : (Parser.many p (c ++ r)).UpTo r.length) {u : List Lexeme}
    (hu : ¬(Parser.many p (c ++ r)).Awaits r.length (tokensOf u).head?) :
    (Parser.many p (c ++ r)).Carries r u (Parser.many p (c ++ u)) := by
  rcases ht : (p (c ++ r)).result with _ | ⟨a, us⟩
  · rw [many_of_none ht] at hup hu
    exact carries_many_of_none ht ((h.carries (Nat.zero_le _) (Outcome.upTo_of_none ht hup.furthest) hu).1 ht)
  · have hlt := hp.length_lt hL ht
    obtain ⟨hup₁, hup₂⟩ := upTo_many hp hL ht hlt hup
    rw [awaits_many ht hlt hup, not_or] at hu
    obtain ⟨d, rfl, ht'⟩ := (h.carries (Nat.zero_le _) hup₁ hu.1).2 a us ht
    -- the other items start behind `d`, which is shorter than `c`
    have hdc : d.length < c.length := by simpa using hlt
    exact carries_many_of_some ht ht' hdc (carries_many h hp hL hup₂ hu.2)
termination_by c.length

theorem responds_many (h : Candid 0 p) (hp : Reads p L) (hL : L.Proper) {c r : List Lexeme}
    (hup : (Parser.many p (c ++ r)).UpTo r.length) {u : List Lexeme}
    (hu : (Parser.many p (c ++ r)).Awaits r.length (tokensOf u).head?) : ¬(Parser.many p (c ++ u)).UpTo u.length := by
  intro hup'
  -- an item that is refused or read on `c ++ u` has not looked further than the repetition
  have hitem : (p (c ++ u)).UpTo u.length := by
    rcases ht' : (p (c ++ u)).result with _ | ⟨a, us⟩
    · rw [many_of_none ht'] at hup'
      exact Outcome.upTo_of_none ht' hup'.furthest
    · exact (upTo_many hp hL ht' (hp.length_lt hL ht') hup').1
  rcases ht : (p (c ++ r)).result with _ | ⟨a, us⟩
  · rw [many_of_none ht] at hup hu
    exact h.responds (Nat.zero_le _) (Outcome.upTo_of_none ht hup.furthest) hu hitem
  · have hlt := hp.length_lt hL ht
    obtain ⟨hup₁, hup₂⟩ := upTo_many hp hL ht hlt hup
    by_cases hfirst : (p (c ++ r)).Awaits r.length (tokensOf u).head?
    · exact h.responds (Nat.zero_le _) hup₁ hfirst hitem
    · obtain ⟨d, rfl, ht'⟩ := (h.carries (Nat.zero_le _) hup₁ hfirst).2 a us ht
      have hdc : d.length < c.length := by simpa using hlt
      have hlater := ((awaits_many ht hlt hup).1 hu).resolve_left hfirst
      exact responds_many h hp hL hup₂ hlater (upTo_many hp hL ht' (by simpa using hdc) hup').2
termination_by c.length

theorem known_many (h : Candid 0 p) (hp : Reads p L) (hL : L.Proper) {e : Expectation} {ts : List Lexeme}
    (he : Records n e (Parser.many p ts).furthest) : ∃ next, e.Covers next := by
  rcases ht : (p ts).result with _ | ⟨a, us⟩
  · rw [many_of_none ht] at he
    exact h.known_at hp he
  · have hlt := hp.length_lt hL ht
    rw [furthest_many ht hlt] at he
    rcases records_of_join he with he | he
    · exact h.known_at hp he
    · exact known_many h hp hL he
termination_by ts.length

theorem many (h : Candid 0 p) (hp : Reads p L) (hL : L.Proper) : Candid 0 (many p) where
  carries _ hup _ hu := carries_many h hp hL hup hu
  responds _ hup _ hu := responds_many h hp hL hup hu
  known _ he := known_many h hp hL he

end Many

/-! ### Labels and spans -/

section Label

variable {c : Construct}

/-- A label changes nothing behind the place where it starts. -/
theorem records_label {ts : List Lexeme} {n : Nat} {e : Expectation} (hn : n ≠ ts.length) :
    Records n e (Parser.label c p ts).furthest ↔ Records n e (p ts).furthest := by
  unfold Parser.label
  rcases hm : (p ts).furthest with _ | m
  · simp [Records, hm]
  · simp only [Records, hm, Option.map_some, Option.some.injEq, exists_eq_left']
    split
    · rename_i hstart
      simp only [hstart]
      exact ⟨fun h => absurd h.1.symm hn, fun h => absurd h.1.symm hn⟩
    · rfl

theorem upTo_label {ts : List Lexeme} {n : Nat} : (Parser.label c p ts).UpTo n ↔ (p ts).UpTo n := by
  have hfurthest : NotPast n (Parser.label c p ts).furthest ↔ NotPast n (p ts).furthest := by
    unfold Parser.label
    rcases hm : (p ts).furthest with _ | m
    · simp [NotPast, hm]
    · simp only [NotPast, hm, Option.map_some, Option.some.injEq, forall_eq']
      split <;> rfl
  exact ⟨fun h => ⟨hfurthest.1 h.furthest, h.result⟩, fun h => ⟨hfurthest.2 h.furthest, h.result⟩⟩

/-- Behind its start a labelled parser is as candid as the parser itself. -/
theorem label_behind (h : Candid 1 p) : Candid 1 (label c p) where
  carries {d r} hd hup u hu := by
    have hn : r.length ≠ (d ++ r).length := by rw [List.length_append]; omega
    refine h.carries hd (upTo_label.1 hup) fun ⟨e, he, hcovers⟩ => hu ⟨e, (records_label hn).2 he, hcovers⟩
  responds {d r} hd hup u := by
    have hn : r.length ≠ (d ++ r).length := by rw [List.length_append]; omega
    rintro ⟨e, he, hcovers⟩ hup'
    exact h.responds hd (upTo_label.1 hup) ⟨e, (records_label hn).1 he, hcovers⟩ (upTo_label.1 hup')
  known {ts n e} hn he := h.known hn ((records_label (by omega)).1 he)

/-- Where it starts a labelled parser expects the construct of the label and nothing else. -/
theorem eq_of_records_label {ts : List Lexeme} {e : Expectation} (h : Records ts.length e (Parser.label c p ts).furthest) :
    e = .construct c := by
  obtain ⟨m, hm, hleft, he⟩ := h
  obtain ⟨x, hx, hxm⟩ := left_label hm
  have hstart : x.left = ts.length := by omega
  simp only [Parser.label, hx, Option.map_some, hstart, if_true, Option.some.injEq] at hm
  subst hm
  exact List.mem_singleton.1 he

/-- A labelled parser that has not looked past its start has been refused there, and expects its
construct. -/
theorem refused_of_upTo_label (hp : Reads p L) (hL : L.Proper) {ts : List Lexeme} (hup : (Parser.label c p ts).UpTo ts.length) :
    (p ts).result = none ∧ Records ts.length (.construct c) (Parser.label c p ts).furthest := by
  have hnone : (p ts).result = none := by
    rw [Option.eq_none_iff_forall_ne_some]
    rintro ⟨a, rest⟩ ha
    have := hup.result a rest ha
    have := hp.length_lt hL ha
    omega
  obtain ⟨m, hm⟩ := Option.ne_none_iff_exists'.1 (hp.explained hnone)
  have hle := (upTo_label.1 hup).furthest m hm
  have hleft : m.left = ts.length := Nat.le_antisymm (hp.left_le hm) hle
  exact ⟨hnone, by simp [Records, Parser.label, hm, hleft]⟩

/-- A label that stands for just the tokens that a parser starts with says all there is to say. -/
theorem label (h : Candid 1 p) (hp : Reads p L) (hL : L.Proper)
    (hstarts : ∀ l w a, L (l :: w) a → (Expectation.construct c).Covers (some l.token))
    (htakes : ∀ t, (Expectation.construct c).Covers (some t) → p.Takes t) (hend : ¬(Expectation.construct c).Covers none) :
    Candid 0 (label c p) := by
  -- only the place where the label starts is new
  constructor
  case carries =>
    intro d r _ hup u hu
    rcases d with _ | ⟨t, d⟩
    · rw [List.nil_append] at hup hu ⊢
      obtain ⟨hnone, hrecords⟩ := refused_of_upTo_label hp hL hup
      refine ⟨fun _ => ?_, fun a rest ha => ?_⟩
      · show (p u).result = none
        rw [Option.eq_none_iff_forall_ne_some]
        rintro ⟨a, rest⟩ ha
        obtain ⟨w, rfl, hw⟩ := hp.sound ha
        obtain ⟨l, w, rfl⟩ := List.exists_cons_of_ne_nil (hL w a hw)
        exact hu ⟨_, hrecords, hstarts l w a hw⟩
      · rw [result_label, hnone] at ha
        cases ha
    · exact h.label_behind.carries (by simp) hup hu
  case responds =>
    intro d r _ hup u hu
    rcases d with _ | ⟨t, d⟩
    · obtain ⟨e, he, hcovers⟩ := hu
      obtain rfl : e = .construct c := eq_of_records_label he
      rcases u with _ | ⟨l, u⟩
      · exact absurd hcovers hend
      · exact fun hup' => htakes _ hcovers l u rfl (upTo_label.1 hup')
    · exact h.label_behind.responds (by simp) hup hu
  case known =>
    intro ts n e hn he
    rcases Nat.lt_or_eq_of_le hn with hlt | rfl
    · exact h.label_behind.known hlt he
    · obtain ⟨w, a, hw⟩ := hp.inhabited
      obtain ⟨l, w, rfl⟩ := List.exists_cons_of_ne_nil (hL w a hw)
      obtain rfl := eq_of_records_label he
      exact ⟨some l.token, hstarts l w a hw⟩

theorem upTo_located {ts : List Lexeme} {n : Nat} : (Parser.located p ts).UpTo n ↔ (p ts).UpTo n := by
  constructor
  · rintro ⟨hfurthest, hresult⟩
    rw [furthest_located] at hfurthest
    exact ⟨hfurthest, fun a rest ha => hresult (a, spanRead ts rest) rest (by simp [ha])⟩
  · rintro ⟨hfurthest, hresult⟩
    refine ⟨by rwa [furthest_located], fun x rest hx => ?_⟩
    simp only [result_located, Option.map_eq_some_iff, Prod.mk.injEq] at hx
    obtain ⟨⟨a, _⟩, ha, -, rfl⟩ := hx
    exact hresult a _ ha

theorem located (h : Candid k p) (hp : Reads p L) : Candid k (located p) := by
  constructor
  case carries =>
    intro c r hc hr u hu
    simp only [Outcome.Awaits, furthest_located] at hu
    exact hp.carries_located (h.carries hc (upTo_located.1 hr) hu)
  case responds =>
    intro c r hc hr u hu hr'
    simp only [Outcome.Awaits, furthest_located] at hu
    exact h.responds hc (upTo_located.1 hr) hu (upTo_located.1 hr')
  case known =>
    intro ts n e hn he
    rw [furthest_located] at he
    exact h.known hn he

end Label

/-! ### Recursion -/

theorem refuse : Candid k (Parser.refuse : Parser α) where
  carries _ _ _ _ := ⟨fun _ => rfl, nofun⟩
  responds {c r} _ _ u := by
    rintro ⟨e, ⟨m, hm, -, he⟩, -⟩
    cases hm
    cases he
  known {ts n e} _ := by
    rintro ⟨m, hm, -, he⟩
    cases hm
    cases he

/-- A recursive parser is candid if its body is whenever its hole is. -/
theorem recursive {body : Parser α → Parser α} (hbody : Productive body L)
    (h : ∀ p, Reads p L → Candid 0 p → Candid 0 (body p)) : Candid 0 (recursive body) := by
  have hunfolded : ∀ n, Candid 0 (body^[n] Parser.refuse) := by
    intro n
    induction n with
    | zero => exact refuse
    | succ n ih =>
      rw [Function.iterate_succ_apply']
      exact h _ (hbody.reads_unfolded n) ih
  constructor
  case carries =>
    intro c r hc hup u hu
    obtain ⟨n, hr, hr'⟩ := hbody.recursive_unfolded_both (c ++ r) (c ++ u)
    rw [hr] at hup hu ⊢
    rw [hr']
    exact (hunfolded n).carries hc hup hu
  case responds =>
    intro c r hc hup u hu
    obtain ⟨n, hr, hr'⟩ := hbody.recursive_unfolded_both (c ++ r) (c ++ u)
    rw [hr] at hup hu
    rw [hr']
    exact (hunfolded n).responds hc hup hu
  case known =>
    intro ts n e hn he
    rw [hbody.recursive_unfolded _ ts (Nat.lt_succ_self _)] at he
    exact (hunfolded _).known hn he

end Candid

end Parser

end Parley
