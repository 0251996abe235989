/-
A syntax error stands at the first token that cannot be right. The tokens before it begin a text in
the language of the grammar, with the token itself they begin none; and the error names that token
and its span, or nothing and the end of the source if the text only breaks off too early.
-/
import Parley.Proofs.Grammar.Language
import Parley.Proofs.Parser.Failure
import Parley.Proofs.Token.Layout
import Mathlib

namespace Parley

namespace Grammar

/-- Tokens that begin a text in the language. -/
def Viable (ts : List Token) : Prop := ∃ more, InLanguage (ts ++ more)

/-- Some lexemes with given tokens. -/
def lexemesOf (ts : List Token) : List Lexeme := ts.map fun t => ⟨t, "", .nowhere⟩

@[simp] theorem tokensOf_lexemesOf (ts : List Token) : tokensOf (lexemesOf ts) = ts := by
  simp [tokensOf, lexemesOf, Function.comp_def]

/-- Where the parser of schemas is refused, the tokens stop being viable. -/
theorem viable_of_refusedAt {us vs : List Lexeme}
    (h : Parser.RefusedAt (Schema.mk <$> Parser.many1 transaction) (.ofTree SchemaTree.lexemes SchemaTree.schema) us vs) :
    Viable (tokensOf us) ∧ ∀ l rest, vs = l :: rest → ¬Viable (tokensOf (us ++ [l])) := by
  constructor
  · obtain ⟨z, _, t, ht, -⟩ := h.viable
    exact ⟨tokensOf z, t, by rw [ht, tokensOf_append]⟩
  · rintro l rest hvs ⟨more, hmore⟩
    have hrefused := h.refused l rest hvs (lexemesOf more)
    refine inLanguage_iff.1 ?_ hrefused
    rw [List.append_cons, tokensOf_append, tokensOf_lexemesOf]
    exact hmore

end Grammar

/-! ## The place of an error -/

/-- The place of an error among lexemes: that of the token found, or behind them all if none was. -/
def ParseError.position (e : ParseError) (ls : List Lexeme) : Nat :=
  if e.found = none then ls.length else (ls.map (·.span)).idxOf e.span

/-- The lexemes of a text have different spans. -/
theorem nodup_spans {source : String} {ls : List Lexeme} (h : tokenize source = .ok ls) : (ls.map (·.span)).Nodup := by
  obtain ⟨xs, hcut, -, rfl⟩ := Scan.tokenize_ok_iff.1 h
  obtain ⟨hin, hpair⟩ := Scan.placed_places .first xs hcut.text_ne_nil
  rw [List.Nodup, List.pairwise_map]
  refine hpair.imp_of_mem fun {l m} hl _ hlm hspan => ?_
  have hpos := (hin l hl).2.2
  rw [← hspan, Span.stop] at hlm
  omega

/-- An error that names the lexeme at a cut stands at the cut. -/
theorem ParseError.position_cut {e : ParseError} {us vs : List Lexeme} {stop : Span}
    (hspans : ((us ++ vs).map (·.span)).Nodup) (hspan : e.span = spanOf stop vs)
    (hfound : e.found = vs.head?.map (·.token)) : e.position (us ++ vs) = us.length := by
  unfold position
  rcases vs with _ | ⟨l, vs⟩
  · rw [if_pos (by rw [hfound]; rfl), List.append_nil]
  · have hspan : e.span = l.span := hspan
    rw [List.map_append, List.map_cons] at hspans ⊢
    have hus : l.span ∉ us.map (·.span) := fun hl => hspans.disjoint hl List.mem_cons_self
    rw [if_neg (by rw [hfound]; exact Option.some_ne_none _), hspan, List.idxOf_append_of_notMem hus,
      List.idxOf_cons_self, List.length_map, Nat.add_zero]

/-- A source of tokens that is not parsed has a syntax error at the first token with which the text
cannot be right: the tokens before it still begin a text in the language, with it they do not. -/
theorem syntax_error_at_first_wrong_token {source : String} {ls : List Lexeme} (htokens : tokenize source = .ok ls)
    (hfail : ∀ s, parse source ≠ .ok s) :
    ∃ e, parse source = .error (.parse e) ∧ Grammar.Viable (tokensOf (ls.take (e.position ls))) ∧
      match ls[e.position ls]? with
      | some l => ¬Grammar.Viable (tokensOf (ls.take (e.position ls + 1))) ∧ e.found = some l.token ∧ e.span = l.span
      | none => e.position ls = ls.length ∧ ¬Grammar.InLanguage (tokensOf ls) ∧ e.found = none ∧
          e.span = Span.atEnd source ∧ e.span.offset = byteLength source.toList ∧ e.span.length = 0 := by
  cases hparse : parseTokens source ls with
  | ok s => exact absurd (parse_ok_iff.2 ⟨ls, htokens, hparse⟩) (hfail s)
  | error e =>
    refine ⟨e, by simp [parse, htokens, hparse, Except.mapError], ?_⟩
    have hrefused : ¬Grammar.InLanguage (tokensOf ls) := by
      intro hlanguage
      obtain ⟨s, hs⟩ := (Parser.readAll_ok_iff (Span.atEnd source)).2 (Grammar.inLanguage_iff.1 hlanguage)
      exact hfail s (parse_ok_iff.2 ⟨ls, htokens, hs⟩)
    obtain ⟨us, vs, rfl, hcut, hspan, hfound⟩ := Grammar.reads_schemas.readAll_error hparse
    obtain ⟨hviable, hwrong⟩ := Grammar.viable_of_refusedAt hcut
    rw [ParseError.position_cut (nodup_spans htokens) hspan hfound, List.take_left]
    refine ⟨hviable, ?_⟩
    rcases vs with _ | ⟨l, vs⟩
    · rw [List.append_nil] at hrefused ⊢
      rw [List.getElem?_eq_none (Nat.le_refl _)]
      refine ⟨rfl, hrefused, hfound, hspan, ?_⟩
      rw [show e.span = Span.atEnd source from hspan]
      exact ⟨Span.offset_atEnd _, Span.length_atEnd _⟩
    · rw [List.getElem?_append_right (Nat.le_refl _), Nat.sub_self, List.getElem?_cons_zero, List.append_cons,
        List.take_left' (by simp)]
      exact ⟨hwrong l vs rfl, hfound, hspan⟩

/-- In `transaction T actor` the brace is missing where `actor` stands. -/
theorem syntax_error_of_missing_brace :
    ∃ e, parse "transaction T actor" = .error (.parse e) ∧ e.found = some (.keyword .actor) ∧ e.span = ⟨14, 5, 1, 15⟩ ∧
      Grammar.Viable [.keyword .transaction, .name "T"] ∧
      ¬Grammar.Viable [.keyword .transaction, .name "T", .keyword .actor] := by
  have htokens : tokenize "transaction T actor" = .ok [⟨.keyword .transaction, "transaction", ⟨0, 11, 1, 1⟩⟩,
      ⟨.name "T", "T", ⟨12, 1, 1, 13⟩⟩, ⟨.keyword .actor, "actor", ⟨14, 5, 1, 15⟩⟩] := by cbv
  have hfail : ∀ s, parse "transaction T actor" ≠ .ok s := by
    intro s hs
    rw [parse, htokens] at hs
    cases hs
  obtain ⟨e, he, hviable, hwrong⟩ := syntax_error_at_first_wrong_token htokens hfail
  have hread := he
  rw [parse, htokens] at hread
  cases hread
  exact ⟨_, he, rfl, rfl, hviable, hwrong.1⟩

end Parley
