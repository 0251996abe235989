/-
What the parser of schemas accepts. The tokens it accepts are the language of the grammar, each
list of lexemes in it has one derivation, and the schema that is returned is the one read off that
derivation; a source is parsed exactly when it is made of tokens and these are in the language.
-/
import Parley.Parser.Parse
import Parley.Proofs.Grammar.Blind
import Parley.Proofs.Grammar.Unique

namespace Parley

open Parley.Parser

namespace Grammar

/-- The language of the grammar: the tokens of derivation trees. -/
def InLanguage (ts : List Token) : Prop := ∃ t : SchemaTree, tokensOf t.lexemes = ts

/-- Nothing is left when a schema has been read. -/
theorem schema_result_iff {ls : List Lexeme} {x : Schema × List Lexeme} :
    (schema ls).result = some x ↔ ∃ t : SchemaTree, t.lexemes = ls ∧ x = (t.schema, []) := by
  constructor
  · intro h
    obtain ⟨h, hrest⟩ := result_to_end.1 h
    obtain ⟨w, hw, t, rfl, ht⟩ := reads_schemas.sound h
    rw [List.append_nil] at hw
    exact ⟨t, hw.symm, Prod.ext ht.symm hrest⟩
  · rintro ⟨t, rfl, rfl⟩
    exact complete_schema t

/-- Lexemes with the tokens of a derivation have a derivation of their own, which gives the same
schema up to spans. -/
theorem derivation_of_tokens {t : SchemaTree} {ls : List Lexeme} (h : tokensOf t.lexemes = tokensOf ls) :
    ∃ t' : SchemaTree, t'.lexemes = ls ∧ t'.schema.bare = t.schema.bare := by
  have hread := (blind_schema _ _ h).2
  rw [complete_schema t] at hread
  generalize hr : (schema ls).result = y at hread
  rcases hread with ⟨hs, -⟩ | _
  obtain ⟨t', rfl, rfl⟩ := schema_result_iff.1 hr
  exact ⟨t', rfl, hs.symm⟩

/-- The language is what the parser accepts. -/
theorem inLanguage_iff {ls : List Lexeme} : InLanguage (tokensOf ls) ↔ (schema ls).result ≠ none := by
  constructor
  · rintro ⟨t, ht⟩
    obtain ⟨t', rfl, -⟩ := derivation_of_tokens ht
    rw [complete_schema]
    exact Option.some_ne_none _
  · intro h
    obtain ⟨x, hx⟩ := Option.ne_none_iff_exists'.1 h
    obtain ⟨t, rfl, -⟩ := schema_result_iff.1 hx
    exact ⟨t, rfl⟩

end Grammar

theorem parseTokens_ok_iff {source : String} {ls : List Lexeme} {s : Schema} :
    parseTokens source ls = .ok s ↔ ∃ t : SchemaTree, t.lexemes = ls ∧ t.schema = s := by
  unfold parseTokens Parser.readAll
  constructor
  · intro h
    split at h
    · rename_i a rest m heq
      obtain rfl : a = s := by simpa using h
      obtain ⟨t, ht, hx⟩ := Grammar.schema_result_iff.1 (congrArg Outcome.result heq)
      exact ⟨t, ht, (congrArg Prod.fst hx).symm⟩
    · cases h
  · rintro ⟨t, rfl, rfl⟩
    have hread := Grammar.complete_schema t
    split
    · rename_i a rest m heq
      rw [heq] at hread
      cases hread; rfl
    · rename_i m heq
      rw [heq] at hread
      cases hread

theorem parse_ok_iff {source : String} {s : Schema} :
    parse source = .ok s ↔ ∃ ls, tokenize source = .ok ls ∧ parseTokens source ls = .ok s := by
  unfold parse
  cases htok : tokenize source with
  | error e => simp
  | ok ls => cases hparse : parseTokens source ls <;> simp [Except.mapError, hparse]

/-- A text is read as a schema just if its tokens have a derivation that the schema is read off. -/
theorem parse_ok_iff_derivation {source : String} {s : Schema} :
    parse source = .ok s ↔ ∃ t : SchemaTree, tokenize source = .ok t.lexemes ∧ t.schema = s := by
  rw [parse_ok_iff]
  constructor
  · rintro ⟨ls, htok, hls⟩
    obtain ⟨t, rfl, ht⟩ := parseTokens_ok_iff.1 hls
    exact ⟨t, htok, ht⟩
  · rintro ⟨t, htok, ht⟩
    exact ⟨t.lexemes, htok, parseTokens_ok_iff.2 ⟨t, rfl, ht⟩⟩

/-- The parser of schemas accepts the language of the grammar, in which every list of lexemes has at
most one derivation, and returns what is read off the derivation. -/
theorem parses_its_grammar :
    (∀ source ls, (∃ s, parseTokens source ls = .ok s) ↔ Grammar.InLanguage (tokensOf ls)) ∧
    (∀ t t' : SchemaTree, t.lexemes = t'.lexemes → t = t') ∧
    (∀ source ls s, parseTokens source ls = .ok s ↔ ∃ t : SchemaTree, t.lexemes = ls ∧ t.schema = s) ∧
    (∀ source ls s (t : SchemaTree), parseTokens source ls = .ok s → tokensOf t.lexemes = tokensOf ls → t.schema.bare = s.bare) ∧
    ∀ source, (∃ s, parse source = .ok s) ↔ ∃ ls, tokenize source = .ok ls ∧ Grammar.InLanguage (tokensOf ls) := by
  have haccepts : ∀ source ls, (∃ s, parseTokens source ls = .ok s) ↔ Grammar.InLanguage (tokensOf ls) := by
    intro source ls
    constructor
    · rintro ⟨s, hs⟩
      obtain ⟨t, rfl, -⟩ := parseTokens_ok_iff.1 hs
      exact ⟨t, rfl⟩
    · rintro ⟨t, ht⟩
      obtain ⟨t', ht', -⟩ := Grammar.derivation_of_tokens ht
      exact ⟨_, parseTokens_ok_iff.2 ⟨t', ht', rfl⟩⟩
  refine ⟨haccepts, Grammar.schema_injective, fun _ _ _ => parseTokens_ok_iff, ?_, ?_⟩
  · intro source ls s t hs ht
    obtain ⟨t', rfl, rfl⟩ := parseTokens_ok_iff.1 hs
    obtain ⟨t'', ht'', hbare⟩ := Grammar.derivation_of_tokens ht
    rw [← hbare, Grammar.schema_injective t'' t' ht'']
  · intro source
    constructor
    · rintro ⟨s, hs⟩
      obtain ⟨ls, htok, hs⟩ := parse_ok_iff.1 hs
      exact ⟨ls, htok, (haccepts source ls).1 ⟨s, hs⟩⟩
    · rintro ⟨ls, htok, hlang⟩
      obtain ⟨s, hs⟩ := (haccepts source ls).2 hlang
      exact ⟨s, parse_ok_iff.2 ⟨ls, htok, hs⟩⟩

/-- The derivation of `transaction T{}`. -/
def emptyTransaction : SchemaTree where
  first :=
    { header := ⟨.placed () "transaction" ⟨0, 11, 1, 1⟩, .placed "T" "T" ⟨12, 1, 1, 13⟩, none, .placed () "\x7b" ⟨13, 1, 1, 14⟩⟩
      declarations := []
      right := .placed () "\x7d" ⟨14, 1, 1, 15⟩ }
  more := []

theorem parses_emptyTransaction : ∃ s, parseTokens "transaction T\x7b\x7d" emptyTransaction.lexemes = .ok s ∧
    s.bare = emptyTransaction.schema.bare := by
  obtain ⟨s, hs⟩ := (parses_its_grammar.1 "transaction T\x7b\x7d" _).2 ⟨emptyTransaction, rfl⟩
  exact ⟨s, hs, (parses_its_grammar.2.2.2.1 _ _ s emptyTransaction hs rfl).symm⟩

end Parley
