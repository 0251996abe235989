/-
What a syntax error lists is what could have come instead. Every parser of the grammar is candid:
each way to go on leaves its mark where reading stops, and a label says no more and no less than the
tokens that its construct starts with. So the entries of an error stand for just those tokens that,
behind the tokens accepted so far, begin a text in the language, and for the end if these tokens are
one.
-/
import Parley.Proofs.Grammar.Viable
import Parley.Proofs.Parser.Continuation
import Parley.Proofs.Token.Edge

namespace Parley

/-! ## Spellings -/

theorem Keyword.spelling_injective {word word' : Keyword} (h : word.spelling = word'.spelling) : word = word' :=
  Option.some.inj ((ofSpelling?_eq_some_iff.2 rfl).symm.trans (ofSpelling?_eq_some_iff.2 h.symm))

theorem Symbol.spelling_injective {mark mark' : Symbol} (h : mark.spelling = mark'.spelling) : mark = mark' := by
  obtain ⟨c, w, hchars⟩ := List.exists_cons_of_ne_nil mark.chars_ne_nil
  have hchars' : mark'.chars = c :: w := by rw [← toList_spelling, ← h, toList_spelling, hchars]
  have hread := Scan.symbol?_spelled hchars [] (by simp)
  have hread' := Scan.symbol?_spelled hchars' [] (by simp)
  exact Option.some.inj (hread.symm.trans hread')

theorem Symbol.spelling_ne_keyword (mark : Symbol) (word : Keyword) : mark.spelling ≠ word.spelling := by
  intro h
  have hword := Keyword.ofSpelling?_eq_some_iff.2 h.symm
  cases mark <;> cases hword

end Parley

namespace Parley.Grammar

open Parley.Parser

variable {τ α : Type}

/-! ## What entries stand for -/

section Entries

variable {t : Token}

theorem quoted_ne {s entry : String} (h : entry.toList.head? ≠ some '\x60') : "`" ++ s ++ "`" ≠ entry := by
  rintro rfl
  exact h (by simp)

/-- An entry in quotes stands for the fixed token whose spelling is in the quotes: names of constructs have none. -/
theorem quoted_mem_entries {s : String} : "`" ++ s ++ "`" ∈ t.entries ↔
    (∃ word, t = .keyword word ∧ word.spelling = s) ∨ ∃ mark, t = .symbol mark ∧ mark.spelling = s := by
  have hquotes {a b : String} : "`" ++ a ++ "`" = "`" ++ b ++ "`" ↔ b = a := by
    rw [String.append_left_inj, String.append_right_inj, eq_comm]
  have hnone {entries : List String} (h : ∀ entry ∈ entries, entry.toList.head? ≠ some '\x60') :
      "`" ++ s ++ "`" ∉ entries := fun hmem => quoted_ne (h _ hmem) rfl
  rcases t with word | mark | _ | _ | _
  · have hconstructs : "`" ++ s ++ "`" ∉ word.constructs := hnone (by cases word <;> decide)
    simp [Token.entries, hconstructs, hquotes]
  · have hconstructs : "`" ++ s ++ "`" ∉ mark.constructs := hnone (by cases mark <;> decide)
    simp [Token.entries, hconstructs, hquotes]
  all_goals
    refine iff_of_false (hnone ?_) (by simp)
    simp [Token.entries]

theorem covers_keyword {word : Keyword} : (Expectation.token (.keyword word)).Covers (some t) ↔ t = .keyword word := by
  simp only [Expectation.Covers, Expectation.describe, Token.display, entriesFor, Option.elim_some, quoted_mem_entries]
  constructor
  · rintro (⟨other, rfl, hspelling⟩ | ⟨mark, rfl, hspelling⟩)
    · rw [Keyword.spelling_injective hspelling]
    · exact absurd hspelling (mark.spelling_ne_keyword word)
  · exact fun ht => .inl ⟨word, ht, rfl⟩

theorem covers_symbol {mark : Symbol} : (Expectation.token (.symbol mark)).Covers (some t) ↔ t = .symbol mark := by
  simp only [Expectation.Covers, Expectation.describe, Token.display, entriesFor, Option.elim_some, quoted_mem_entries]
  constructor
  · rintro (⟨word, rfl, hspelling⟩ | ⟨other, rfl, hspelling⟩)
    · exact absurd hspelling.symm (mark.spelling_ne_keyword word)
    · rw [Symbol.spelling_injective hspelling]
  · exact fun ht => .inr ⟨mark, ht, rfl⟩

theorem covers_other : Expectation.other.Covers (some t) ↔ ∃ mark, t = .symbol mark ∧ (comparison? mark).isSome := by
  rcases t with word | mark | _ | _ | _
  · cases word <;> simp [Expectation.Covers, Expectation.describe, entriesFor, Token.entries, Keyword.constructs,
      Keyword.spelling]
  · cases mark <;> simp [Expectation.Covers, Expectation.describe, entriesFor, Token.entries, Symbol.constructs,
      Symbol.spelling, comparison?]
  all_goals simp [Expectation.Covers, Expectation.describe, entriesFor, Token.entries]

/-- A label is not in quotes, so it stands for what its construct can begin with. -/
theorem label_ne_quoted (c : Construct) (s : String) : c.label ≠ "`" ++ s ++ "`" := by
  exact (quoted_ne (by cases c <;> decide)).symm

@[simp] theorem covers_construct_keyword {c : Construct} {word : Keyword} :
    (Expectation.construct c).Covers (some (.keyword word)) ↔ c.label ∈ word.constructs := by
  simp [Expectation.Covers, Expectation.describe, entriesFor, Token.entries, label_ne_quoted]

@[simp] theorem covers_construct_symbol {c : Construct} {mark : Symbol} :
    (Expectation.construct c).Covers (some (.symbol mark)) ↔ c.label ∈ mark.constructs := by
  simp [Expectation.Covers, Expectation.describe, entriesFor, Token.entries, label_ne_quoted]

@[simp] theorem covers_construct_integer {c : Construct} {value : Int64} :
    (Expectation.construct c).Covers (some (.integer value)) ↔ c = .expression ∨ c = .condition := by
  cases c <;> simp [Expectation.Covers, Expectation.describe, Construct.label, entriesFor, Token.entries]

@[simp] theorem covers_construct_string {c : Construct} {value : String} :
    (Expectation.construct c).Covers (some (.string value)) ↔ c = .string ∨ c = .expression ∨ c = .condition := by
  cases c <;> simp [Expectation.Covers, Expectation.describe, Construct.label, entriesFor, Token.entries]

@[simp] theorem covers_construct_name {c : Construct} {word : String} :
    (Expectation.construct c).Covers (some (.name word)) ↔
      c ∈ [Construct.identifier, .type, .field, .parameter, .expression, .condition] := by
  cases c <;> simp [Expectation.Covers, Expectation.describe, Construct.label, entriesFor, Token.entries]

theorem not_covers_end (c : Construct) : ¬(Expectation.construct c).Covers none := by
  cases c <;> simp [Expectation.Covers, Expectation.describe, Construct.label, entriesFor]

theorem covers_name {c : Construct} (hc : c ∈ [Construct.identifier, .type, .field, .parameter]) :
    (Expectation.construct c).Covers (some t) ↔ ∃ word, t = .name word := by
  simp only [List.mem_cons, List.not_mem_nil, or_false] at hc
  rcases t with word | mark | _ | _ | _
  · rcases hc with rfl | rfl | rfl | rfl <;> cases word <;> simp [Construct.label, Keyword.constructs]
  · rcases hc with rfl | rfl | rfl | rfl <;> cases mark <;> simp [Construct.label, Symbol.constructs]
  all_goals rcases hc with rfl | rfl | rfl | rfl <;> simp

theorem covers_string : (Expectation.construct .string).Covers (some t) ↔ ∃ value, t = .string value := by
  rcases t with word | mark | _ | _ | _
  · cases word <;> simp [Construct.label, Keyword.constructs]
  · cases mark <;> simp [Construct.label, Symbol.constructs]
  all_goals simp

/-- The constructs that only keywords begin. -/
theorem covers_opened {c : Construct} (hc : c ∈ [Construct.role, .transaction, .declaration, .statement]) :
    (Expectation.construct c).Covers (some t) ↔ ∃ word : Keyword, t = .keyword word ∧ c.label ∈ word.constructs := by
  simp only [List.mem_cons, List.not_mem_nil, or_false] at hc
  rcases t with word | mark | _ | _ | _
  · simp
  · rcases hc with rfl | rfl | rfl | rfl <;> cases mark <;> simp [Construct.label, Symbol.constructs]
  all_goals rcases hc with rfl | rfl | rfl | rfl <;> simp

theorem covers_expression : (Expectation.construct .expression).Covers (some t) ↔
    (literal? t).isSome ∨ (∃ word, t = .name word) ∨ t = .symbol .openParen := by
  rcases t with word | mark | _ | _ | _
  · cases word <;> simp [Construct.label, Keyword.constructs, literal?, truth?]
  · cases mark <;> simp [Construct.label, Symbol.constructs, literal?]
  all_goals simp [literal?]

theorem covers_condition : (Expectation.construct .condition).Covers (some t) ↔
    (Expectation.construct .expression).Covers (some t) ∨ t = .symbol .not := by
  rcases t with word | mark | _ | _ | _
  · cases word <;> simp [Construct.label, Keyword.constructs]
  · cases mark <;> simp [Construct.label, Symbol.constructs]
  all_goals simp

end Entries

/-! ## Terminals -/

theorem proper_keyword (word : Keyword) : (Readings.ofTree (fun k : KeywordLeaf word => [k.lexeme]) fun _ => ()).Proper :=
  Readings.ofTree_proper _ fun _ => List.cons_ne_nil _ _

theorem candid_keyword (word : Keyword) : Candid 0 (keyword word) := by
  refine .satisfy (fun l => ?_) ?_ ⟨_, covers_keyword.2 rfl⟩
  · rw [covers_keyword]
    split <;> simp [*]
  · cases word <;> simp [Expectation.Covers, Expectation.describe, entriesFor, Token.display, Keyword.spelling]

theorem candid_symbol (mark : Symbol) : Candid 0 (symbol mark) := by
  refine .satisfy (fun l => ?_) ?_ ⟨_, covers_symbol.2 rfl⟩
  · rw [covers_symbol]
    split <;> simp [*]
  · cases mark <;> simp [Expectation.Covers, Expectation.describe, entriesFor, Token.display, Symbol.spelling]

theorem candid_comparisonOp : Candid 0 comparisonOp := by
  refine .satisfy (fun l => ?_) ?_ ⟨.symbol .equal, covers_other.2 ⟨.equal, rfl, rfl⟩⟩
  · rw [covers_other]
    split
    · rename_i mark hl
      simp [hl]
    · rename_i hl
      simp only [Option.isSome_none, Bool.false_eq_true, false_iff]
      rintro ⟨mark, hmark, -⟩
      exact hl mark hmark
  · simp [Expectation.Covers, Expectation.describe, entriesFor]

/-- A labelled parser is candid if all its sentences start with a token that the label stands for,
and the parser gets past every such token. -/
theorem candid_label {c : Construct} {p : Parser α} {lexemes : τ → List Lexeme} {value : τ → α} (h : Candid 1 p)
    (hp : Reads (label c p) (.ofTree lexemes value))
    (hstarts : ∀ t, ∃ l w, lexemes t = l :: w ∧ (Expectation.construct c).Covers (some l.token))
    (htakes : ∀ t, (Expectation.construct c).Covers (some t) → (label c p).Takes t) : Candid 0 (label c p) := by
  have hunlabelled : ∀ t, (Expectation.construct c).Covers (some t) → p.Takes t :=
    fun t ht l us hl hup => htakes t ht l us hl (Candid.upTo_label.2 hup)
  refine h.label hp.of_label ?_ ?_ hunlabelled (not_covers_end c)
  · apply Readings.ofTree_proper
    intro t
    obtain ⟨l, w, ht, -⟩ := hstarts t
    rw [ht]
    exact List.cons_ne_nil l w
  · rintro l w a ⟨t, ht, -⟩
    obtain ⟨l', w', ht', hcovers⟩ := hstarts t
    rw [ht', List.cons.injEq] at ht
    rwa [← ht.1]

theorem takes_name (word : String) : identifier.Takes (.name word) :=
  (Takes.satisfy fun l hl => by rw [hl]; rfl).label _

theorem candid_identifier : Candid 0 identifier := by
  have hname {t : Token} : (Expectation.construct .identifier).Covers (some t) ↔ ∃ word, t = .name word :=
    covers_name (by simp)
  refine candid_label (Candid.satisfy_behind _ _) reads_identifier ?_ ?_
  · intro n
    exact ⟨_, _, rfl, hname.2 ⟨_, n.holds⟩⟩
  · intro t ht
    obtain ⟨word, rfl⟩ := hname.1 ht
    exact takes_name word

theorem candid_string : Candid 0 string := by
  refine candid_label (Candid.satisfy_behind _ _) reads_string ?_ ?_
  · intro s
    exact ⟨_, _, rfl, covers_string.2 ⟨_, s.holds⟩⟩
  · intro t ht
    obtain ⟨value, rfl⟩ := covers_string.1 ht
    exact (Takes.satisfy fun l hl => by rw [hl]; rfl).label _

theorem candid_name : Candid 0 (Prod.fst <$> identifier) := candid_identifier.map _

theorem candid_reference : Candid 0 reference := candid_identifier.map _

/-! ## Brackets and separators -/

section Brackets

variable {p : Parser α} {L : Readings α} {lexemes : τ → List Lexeme} {value : τ → α}

theorem candid_between (left right : Symbol) (h : Candid 0 p) (hp : Reads p L) :
    Candid 0 (symbol left *> p <* symbol right) :=
  ((candid_symbol left).behind h hp).before (candid_symbol right) (reads_symbol right)

theorem candid_pairs (mark : Symbol) (h : Candid 0 p) (hp : Reads p (.ofTree lexemes value)) :
    Candid 0 (many (symbol mark *> p)) := by
  refine ((candid_symbol mark).behind h hp).many ((reads_symbol mark).behind hp) ?_
  rintro w a ⟨_, _, _, rfl, ⟨m, rfl, -⟩, -⟩
  exact List.cons_ne_nil _ _

theorem candid_separated (h : Candid 0 p) (hp : Reads p (.ofTree lexemes value)) : Candid 0 (sepBy1 p (symbol .comma)) :=
  (h.map _).seq (candid_pairs .comma h hp) (reads_pairs .comma hp)

theorem candid_closed (mark : Symbol) (h : Candid 0 p) : Candid 0 (p <* optional (symbol mark)) :=
  h.before (candid_symbol mark).optional (reads_symbol mark).optional

end Brackets

/-! ## Types -/

theorem candid_typeBody {p : Parser TypeExpr} (hp : Reads p (.ofTree TypeTree.lexemes TypeTree.type)) (h : Candid 0 p) :
    Candid 0 (typeBody p) := by
  have hargs := candid_between .less .greater (candid_separated h hp) (reads_separated hp)
  have rargs := (reads_between .less .greater (reads_separated hp)).optional
  have hparts := (candid_name.map Prod.mk).seq hargs.optional rargs
  exact (hparts.located ((reads_name.map Prod.mk).seq rargs)).map _

theorem takes_type (word : String) : type.Takes (.name word) := by
  have hbody : (recursive typeBody).Takes (.name word) := by
    have rargs := (reads_between .less .greater (reads_separated productive_typeBody.recursive)).optional
    rw [productive_typeBody.recursive_eq]
    exact ((((takes_name word).map _).map Prod.mk).first rargs).located.map _
  exact hbody.label _

theorem candid_type : Candid 0 type := by
  have hname {t : Token} : (Expectation.construct .type).Covers (some t) ↔ ∃ word, t = .name word := covers_name (by simp)
  refine candid_label ((Candid.recursive productive_typeBody fun _ => candid_typeBody).mono (Nat.zero_le 1)) reads_type ?_ ?_
  · rintro (n | ⟨n, _, _, _, _⟩)
    · exact ⟨_, _, rfl, hname.2 ⟨_, n.holds⟩⟩
    · exact ⟨_, _, rfl, hname.2 ⟨_, n.holds⟩⟩
  · intro t ht
    obtain ⟨word, rfl⟩ := hname.1 ht
    exact takes_type word

/-! ## Expressions -/

theorem candid_path : Candid 0 path :=
  ((candid_name.map _).seq (candid_pairs .dot candid_name reads_name) (reads_pairs .dot reads_name)).map _

theorem takes_path (word : String) : path.Takes (.name word) :=
  ((((takes_name word).map _).map _).first (reads_pairs .dot reads_name)).map _

/-- Every operand starts with a token that the word `expression` stands for. -/
theorem starts_operand (t : OperandTree) :
    ∃ l w, t.lexemes = l :: w ∧ (Expectation.construct .expression).Covers (some l.token) := by
  rcases t with ⟨n, xs⟩ | i | s | y | n | ⟨l, t, r⟩
  · exact ⟨_, _, by rw [OperandTree.lexemes], covers_expression.2 (.inr (.inl ⟨_, n.holds⟩))⟩
  · exact ⟨_, _, by rw [OperandTree.lexemes], covers_expression.2 (.inl (by rw [i.holds]; rfl))⟩
  · exact ⟨_, _, by rw [OperandTree.lexemes], covers_expression.2 (.inl (by rw [s.holds]; rfl))⟩
  · exact ⟨_, _, by rw [OperandTree.lexemes], covers_expression.2 (.inl (by rw [y.holds]; rfl))⟩
  · exact ⟨_, _, by rw [OperandTree.lexemes], covers_expression.2 (.inl (by rw [n.holds]; rfl))⟩
  · exact ⟨_, _, by rw [OperandTree.lexemes], covers_expression.2 (.inr (.inr l.holds))⟩

theorem starts_comparison (t : CmpTree) :
    ∃ l w, t.lexemes = l :: w ∧ (Expectation.construct .expression).Covers (some l.token) := by
  rcases t with t | ⟨t, op, t'⟩
  · rw [CmpTree.lexemes]
    exact starts_operand t
  · obtain ⟨l, w, ht, hl⟩ := starts_operand t
    rw [CmpTree.lexemes, ht]
    exact ⟨l, _, rfl, hl⟩

theorem starts_expression (t : OrTree) :
    ∃ l w, t.lexemes = l :: w ∧ (Expectation.construct .condition).Covers (some l.token) := by
  rcases t with ⟨⟨⟨m, t⟩ | t, tail⟩, more⟩
  · simp only [OrTree.lexemes, AndTree.lexemes, UnaryTree.lexemes, List.cons_append]
    exact ⟨_, _, rfl, covers_condition.2 (.inr m.holds)⟩
  · obtain ⟨l, w, ht, hl⟩ := starts_comparison t
    simp only [OrTree.lexemes, AndTree.lexemes, UnaryTree.lexemes, ht, List.cons_append]
    exact ⟨_, _, rfl, covers_condition.2 (.inl hl)⟩

section Expressions

variable {expr : Parser Expr} (hp : Reads expr (.ofTree OrTree.lexemes OrTree.expr))

include hp

theorem takes_operand {t : Token} (ht : (Expectation.construct .expression).Covers (some t)) :
    (operand expr).Takes t := by
  have hliteral : Readings.Proper fun w e => ∃ t : OperandTree, t.lexemes = w ∧ t.expr = e :=
    Readings.ofTree_proper OperandTree.expr operand_ne_nil
  unfold operand
  simp only [choice_cons, choice_nil, orElse_fail]
  apply Takes.label
  rcases covers_expression.1 ht with hsome | ⟨word, rfl⟩ | rfl
  · rw [literal_eq]
    exact (Takes.satisfy fun l hl => by rwa [hl]).left
  · exact .right reads_literal hliteral (takes_path word).left
  · refine .right reads_literal hliteral (.right reads_path (Readings.ofTree_proper _ operand_ne_nil) ?_)
    exact ((Takes.token _).behind hp).before (reads_symbol _)

theorem reads_compared : Reads (optional (Prod.mk <$> comparisonOp <*> operand expr))
    (Readings.or (.map some (.seq (.map Prod.mk (.ofTree (fun c : ComparisonLeaf => [c.lexeme]) (·.value.operator)))
      (.ofTree OperandTree.lexemes OperandTree.expr))) (.nothing none)) :=
  ((reads_comparisonOp.map _).seq (reads_operand hp)).optional

theorem takes_comparison {t : Token} (ht : (Expectation.construct .expression).Covers (some t)) : (comparison expr).Takes t :=
  ((takes_operand hp ht).map _).first (reads_compared hp)

theorem takes_negation {t : Token} (ht : (Expectation.construct .condition).Covers (some t)) : (negation expr).Takes t := by
  have hmark : Readings.Proper (.ofTree (fun s : SymbolLeaf .not => [s.lexeme]) fun _ => ()) :=
    Readings.ofTree_proper _ fun _ => List.cons_ne_nil _ _
  rcases covers_condition.1 ht with ht | rfl
  · exact .second ((Skips.many (reads_symbol .not) hmark).map _) (reads_comparison hp) (takes_comparison hp ht)
  · exact ((Takes.many (reads_symbol .not) hmark (Takes.token _)).map _).first (reads_comparison hp)

variable (h : Candid 0 expr)

include h

theorem candid_operand : Candid 0 (operand expr) := by
  have hchoice : Candid 1 (choice [literal, path, parenthesized expr]) := by
    simp only [choice_cons, choice_nil, orElse_fail]
    have hbracketed := candid_between .openParen .closeParen h hp
    exact (Candid.satisfy_behind _ _).orElse ((candid_path.orElse hbracketed).mono (Nat.zero_le 1))
  exact candid_label hchoice (reads_operand hp) starts_operand fun t ht => takes_operand hp ht

theorem candid_comparison : Candid 0 (comparison expr) := by
  have ho := candid_operand hp h
  exact (ho.map _).seq ((candid_comparisonOp.map _).seq ho (reads_operand hp)).optional (reads_compared hp)

theorem candid_negation : Candid 0 (negation expr) := by
  have hmarks := (candid_symbol .not).many (reads_symbol .not) (Readings.ofTree_proper _ fun _ => List.cons_ne_nil _ _)
  exact (hmarks.map _).seq (candid_comparison hp h) (reads_comparison hp)

end Expressions

section Grouped

variable {item : Parser Expr} {lexemes : τ → List Lexeme} {value : τ → Expr} (hp : Reads item (.ofTree lexemes value))

include hp

theorem candid_leftGrouped (op : Operator) (mark : Symbol) (h : Candid 0 item) : Candid 0 (leftGrouped op mark item) :=
  (h.map _).seq (candid_pairs mark h hp) (reads_pairs mark hp)

theorem takes_leftGrouped (op : Operator) (mark : Symbol) {t : Token} (h : item.Takes t) : (leftGrouped op mark item).Takes t :=
  (h.map _).first (reads_pairs mark hp)

end Grouped

theorem takes_expression {t : Token} (ht : (Expectation.construct .condition).Covers (some t)) : expression.Takes t := by
  have hp := productive_disjunction.recursive
  have hbody : (recursive disjunction).Takes t := by
    rw [productive_disjunction.recursive_eq]
    exact takes_leftGrouped (reads_conjunction hp) .or .or
      (takes_leftGrouped (reads_negation hp) .and .and (takes_negation hp ht))
  exact hbody.label _

theorem candid_expression : Candid 0 expression := by
  have hbody : Candid 0 (recursive disjunction) := by
    refine .recursive productive_disjunction fun expr hp h => ?_
    exact candid_leftGrouped (reads_conjunction hp) .or .or
      (candid_leftGrouped (reads_negation hp) .and .and (candid_negation hp h))
  exact candid_label (hbody.mono (Nat.zero_le 1)) reads_expression starts_expression fun t ht => takes_expression ht

/-! ## Statements -/

theorem candid_action : Candid 0 action := by
  unfold action
  simp only [choice_cons, choice_nil, orElse_fail]
  have hsend := (candid_keyword .send).behind candid_reference reads_reference
  have hcall := (candid_keyword .call).behind candid_reference reads_reference
  have hgoto := (candid_keyword .goto).behind candid_reference reads_reference
  have hargs := (candid_separated candid_expression reads_expression).orElse (.pure [])
  have hbracketed := candid_between .openParen .closeParen hargs (reads_sepBy reads_expression)
  exact (hsend.map _).orElse (((hcall.map _).seq hbracketed (reads_between _ _ (reads_sepBy reads_expression))).orElse
    (hgoto.map _))

theorem takes_action {word : Keyword} (h : Construct.statement.label ∈ word.constructs) : action.Takes (.keyword word) := by
  have rargs := reads_between .openParen .closeParen (reads_sepBy reads_expression)
  have rsend := ((reads_keyword .send).behind reads_reference).map Action.send
  have rcall := (((reads_keyword .call).behind reads_reference).map Action.call).seq rargs
  unfold action
  simp only [choice_cons, choice_nil, orElse_fail]
  cases word <;> simp [Construct.label, Keyword.constructs] at h
  case send => exact (((Takes.token _).behind reads_reference).map _).left
  case call =>
    exact .right rsend (((proper_keyword .send).behind _).map _) ((((Takes.token _).behind reads_reference).map _).first rargs).left
  case goto =>
    refine .right rsend (((proper_keyword .send).behind _).map _) (.right rcall ?_ (((Takes.token _).behind reads_reference).map _))
    exact (((proper_keyword .call).behind _).map _).seq _

/-- Every statement starts with a keyword that the word `statement` stands for. -/
theorem starts_statement (t : StatementTree) :
    ∃ l w, t.lexemes = l :: w ∧ (Expectation.construct .statement).Covers (some l.token) := by
  have hopened {t : Token} := covers_opened (c := .statement) (t := t) (by simp)
  rcases t with ⟨⟨k, n⟩ | ⟨k, n, l, args, r⟩ | ⟨k, n⟩, g⟩
  · exact ⟨_, _, rfl, hopened.2 ⟨_, k.holds, by simp [Construct.label, Keyword.constructs]⟩⟩
  · exact ⟨_, _, rfl, hopened.2 ⟨_, k.holds, by simp [Construct.label, Keyword.constructs]⟩⟩
  · exact ⟨_, _, rfl, hopened.2 ⟨_, k.holds, by simp [Construct.label, Keyword.constructs]⟩⟩

theorem candid_statement : Candid 0 statement := by
  have rguard := reads_guard.optionalTree
  have hguard := ((candid_keyword .when).behind candid_expression reads_expression).optional
  have hparts := ((candid_action.map Prod.mk).seq hguard rguard).located ((reads_action.map _).seq rguard)
  refine candid_label ((hparts.map _).mono (Nat.zero_le 1)) reads_statement starts_statement fun t ht => ?_
  obtain ⟨word, rfl, hword⟩ := (covers_opened (by simp)).1 ht
  exact ((((takes_action hword).map _).first rguard).located.map _).label _

/-! ## Declarations -/

theorem candid_role : Candid 0 role := by
  have rvalue := reads_string.orElse reads_name
  have hvalue := ((candid_keyword .role).behind (candid_symbol .colon) (reads_symbol .colon)).behind
    (candid_string.orElse candid_name) rvalue
  have rcomma := (reads_symbol .comma).optionalTree
  have hopened {t : Token} := covers_opened (c := .role) (t := t) (by simp)
  refine candid_label ((hvalue.before (candid_symbol .comma).optional rcomma).mono (Nat.zero_le 1)) reads_role ?_ ?_
  · intro t
    exact ⟨_, _, rfl, hopened.2 ⟨_, t.word.holds, by simp [Construct.label, Keyword.constructs]⟩⟩
  · intro t ht
    obtain ⟨word, rfl, hword⟩ := hopened.1 ht
    cases word <;> simp [Construct.label, Keyword.constructs] at hword
    exact ((((Takes.token _).behind (reads_symbol .colon)).behind rvalue).before rcomma).label _

theorem candid_actor : Candid 1 actor := by
  have hrole := candid_between .openBrace .closeBrace candid_role.optional reads_role.optionalTree
  have rrole := reads_between .openBrace .closeBrace reads_role.optionalTree
  have hname := (candid_keyword .actor).behind candid_identifier reads_identifier
  exact (((hname.map _).seq hrole rrole).mono (Nat.zero_le 1)).label_behind

theorem takes_actor : actor.Takes (.keyword .actor) := by
  have rrole := reads_between .openBrace .closeBrace reads_role.optionalTree
  exact ((((Takes.token _).behind reads_identifier).map _).first rrole).label _

section Bindings

variable {c : Construct} {β : Type} {f : String × Span → TypeExpr → β} {value : BindingTree → β}

/-- Fields and parameters: a name, a colon and a type. -/
theorem candid_binding (hc : c ∈ [Construct.identifier, .type, .field, .parameter])
    (hp : Reads (label c (f <$> (identifier <* symbol .colon) <*> type)) (.ofTree BindingTree.lexemes value)) :
    Candid 0 (label c (f <$> (identifier <* symbol .colon) <*> type)) := by
  have hbound := (candid_identifier.before (candid_symbol .colon) (reads_symbol .colon)).map f
  refine candid_label ((hbound.seq candid_type reads_type).mono (Nat.zero_le 1)) hp ?_ ?_
  · intro t
    exact ⟨_, _, rfl, (covers_name hc).2 ⟨_, t.name.holds⟩⟩
  · intro t ht
    obtain ⟨word, rfl⟩ := (covers_name hc).1 ht
    exact ((((takes_name word).before (reads_symbol .colon)).map f).first reads_type).label c

end Bindings

theorem candid_field : Candid 0 field := candid_binding (by simp) reads_field

theorem candid_param : Candid 0 param := candid_binding (by simp) reads_param

theorem reads_fields : Reads (many (field <* optional (symbol .comma)))
    (.ofTree (List.flatMap (closedLexemes BindingTree.lexemes))
      (List.map fun x : BindingTree × Option (SymbolLeaf .comma) => x.1.field)) :=
  (reads_closed .comma reads_field).trees fun _ => List.append_ne_nil_of_left_ne_nil (List.cons_ne_nil _ _) _

theorem candid_fields : Candid 0 (many (field <* optional (symbol .comma))) :=
  (candid_closed .comma candid_field).many (reads_closed .comma reads_field) <|
    Readings.ofTree_proper _ fun _ => List.append_ne_nil_of_left_ne_nil (List.cons_ne_nil _ _) _

theorem candid_message : Candid 1 message := by
  have hname := (candid_keyword .message).behind candid_identifier reads_identifier
  have hsender := candid_reference.before (candid_symbol .arrow) (reads_symbol .arrow)
  have rsender := reads_reference.before (reads_symbol .arrow)
  exact (((((hname.map _).seq hsender rsender).seq candid_reference reads_reference).seq
    (candid_between _ _ candid_fields reads_fields) (reads_between _ _ reads_fields)).mono (Nat.zero_le 1)).label_behind

theorem takes_message : message.Takes (.keyword .message) := by
  have rsender := reads_reference.before (reads_symbol .arrow)
  exact (((((((Takes.token _).behind reads_identifier).map _).first rsender).first reads_reference).first
    (reads_between _ _ reads_fields)).label _)

theorem candid_params : Candid 0 (sepEndBy param (symbol .comma)) :=
  ((candid_separated candid_param reads_param).before (candid_symbol .comma).optional
    (reads_symbol .comma).optionalTree).orElse (.pure [])

theorem candid_function : Candid 1 function := by
  have hname := (candid_keyword .function).behind candid_identifier reads_identifier
  have hparams := candid_between .openParen .closeParen candid_params reads_params
  have hreturns := ((candid_symbol .arrow).behind candid_type reads_type).optional
  have hdescription := candid_between .openBrace .closeBrace candid_string.optional reads_string.optionalTree
  exact (((((hname.map _).seq hparams (reads_between _ _ reads_params)).seq hreturns reads_returns.optionalTree).seq
    hdescription (reads_between _ _ reads_string.optionalTree)).mono (Nat.zero_le 1)).label_behind

theorem takes_function : function.Takes (.keyword .function) := by
  have rdescription := reads_between .openBrace .closeBrace reads_string.optionalTree
  exact ((((((Takes.token _).behind reads_identifier).map _).first (reads_between _ _ reads_params)).first
    reads_returns.optionalTree).first rdescription).label _

theorem reads_statements : Reads (many (statement <* optional (symbol .semicolon)))
    (.ofTree (List.flatMap (closedLexemes StatementTree.lexemes))
      (List.map fun x : StatementTree × Option (SymbolLeaf .semicolon) => x.1.statement)) :=
  (reads_closed .semicolon reads_statement).trees
    fun _ => List.append_ne_nil_of_left_ne_nil (StatementTree.lexemes_ne_nil _) _

theorem candid_statements : Candid 0 (many (statement <* optional (symbol .semicolon))) :=
  (candid_closed .semicolon candid_statement).many (reads_closed .semicolon reads_statement) <|
    Readings.ofTree_proper _ fun _ => List.append_ne_nil_of_left_ne_nil (StatementTree.lexemes_ne_nil _) _

theorem candid_block : Candid 1 block := by
  have hopening := (candid_keyword .entry).optional.before (candid_keyword .block) (reads_keyword .block)
  exact ((((hopening.map _).seq candid_identifier reads_identifier).seq
    (candid_between _ _ candid_statements reads_statements) (reads_between _ _ reads_statements)).mono (Nat.zero_le 1)).label_behind

theorem takes_block {word : Keyword} (h : word = .entry ∨ word = .block) : block.Takes (.keyword word) := by
  have hopening : (optional (keyword .entry) <* keyword .block).Takes (.keyword word) := by
    rcases h with rfl | rfl
    · exact (Takes.token _).optional.before (reads_keyword .block)
    · exact .skipping (.optional (reads_keyword .entry) (proper_keyword .entry)) (reads_keyword .block) (Takes.token _)
  exact (((hopening.map _).first reads_identifier).first (reads_between _ _ reads_statements)).label _

/-- Every declaration starts with a keyword that the word `declaration` stands for. -/
theorem starts_declaration (t : DeclarationTree) :
    ∃ l w, t.lexemes = l :: w ∧ (Expectation.construct .declaration).Covers (some l.token) := by
  have hopened {t : Token} := covers_opened (c := .declaration) (t := t) (by simp)
  rcases t with t | t | t | ⟨_ | e, k, n, l, ss, r⟩
  · exact ⟨_, _, rfl, hopened.2 ⟨_, t.word.holds, by simp [Construct.label, Keyword.constructs]⟩⟩
  · exact ⟨_, _, rfl, hopened.2 ⟨_, t.word.holds, by simp [Construct.label, Keyword.constructs]⟩⟩
  · exact ⟨_, _, rfl, hopened.2 ⟨_, t.word.holds, by simp [Construct.label, Keyword.constructs]⟩⟩
  · exact ⟨_, _, rfl, hopened.2 ⟨_, k.holds, by simp [Construct.label, Keyword.constructs]⟩⟩
  · exact ⟨_, _, rfl, hopened.2 ⟨_, e.holds, by simp [Construct.label, Keyword.constructs]⟩⟩

theorem takes_declaration {word : Keyword} (h : Construct.declaration.label ∈ word.constructs) :
    declaration.Takes (.keyword word) := by
  have ractor := reads_actor.map Declaration.actor
  have rmessage := reads_message.map Declaration.message
  have rfunction := reads_function.map Declaration.function
  have pactor : (Readings.ofTree ActorTree.lexemes ActorTree.actor).Proper :=
    Readings.ofTree_proper _ fun _ => List.cons_ne_nil _ _
  have pmessage : (Readings.ofTree MessageTree.lexemes MessageTree.message).Proper :=
    Readings.ofTree_proper _ fun _ => List.cons_ne_nil _ _
  have pfunction : (Readings.ofTree FunctionTree.lexemes FunctionTree.function).Proper :=
    Readings.ofTree_proper _ fun _ => List.cons_ne_nil _ _
  have hblock (h : word = .entry ∨ word = .block) : (orElse (Declaration.actor <$> actor) (orElse (.message <$> message)
      (orElse (.function <$> function) (.block <$> block)))).Takes (.keyword word) :=
    .right ractor (pactor.map _) (.right rmessage (pmessage.map _) (.right rfunction (pfunction.map _) ((takes_block h).map _)))
  unfold declaration
  simp only [choice_cons, choice_nil, orElse_fail]
  apply Takes.label
  cases word <;> simp [Construct.label, Keyword.constructs] at h
  case actor => exact (takes_actor.map _).left
  case message => exact .right ractor (pactor.map _) (takes_message.map _).left
  case function => exact .right ractor (pactor.map _) (.right rmessage (pmessage.map _) (takes_function.map _).left)
  case entry => exact hblock (.inl rfl)
  case block => exact hblock (.inr rfl)

theorem candid_declaration : Candid 0 declaration := by
  have hchoice : Candid 1 (choice [Declaration.actor <$> actor, .message <$> message, .function <$> function, .block <$> block]) := by
    simp only [choice_cons, choice_nil, orElse_fail]
    exact (candid_actor.map _).orElse ((candid_message.map _).orElse ((candid_function.map _).orElse (candid_block.map _)))
  refine candid_label hchoice reads_declaration starts_declaration fun t ht => ?_
  obtain ⟨word, rfl, hword⟩ := (covers_opened (by simp)).1 ht
  exact takes_declaration hword

/-! ## Transactions -/

theorem candid_header : Candid 0 header := by
  have hname := (candid_keyword .transaction).behind candid_identifier reads_identifier
  have hparts := ((hname.map Prod.mk).seq candid_string.optional reads_string.optionalTree).before (candid_symbol .openBrace)
    (reads_symbol .openBrace)
  have hopened {t : Token} := covers_opened (c := .transaction) (t := t) (by simp)
  refine candid_label (hparts.mono (Nat.zero_le 1)) reads_header ?_ ?_
  · intro t
    exact ⟨_, _, rfl, hopened.2 ⟨_, t.word.holds, by simp [Construct.label, Keyword.constructs]⟩⟩
  · intro t ht
    obtain ⟨word, rfl, hword⟩ := hopened.1 ht
    cases word <;> simp [Construct.label, Keyword.constructs] at hword
    exact (((((Takes.token _).behind reads_identifier).map _).first reads_string.optionalTree).before
      (reads_symbol .openBrace)).label _

theorem candid_transaction : Candid 0 transaction := by
  have hdeclarations := candid_declaration.many reads_declaration (Readings.ofTree_proper _ DeclarationTree.lexemes_ne_nil)
  have rdeclarations := reads_declaration.trees DeclarationTree.lexemes_ne_nil
  exact ((candid_header.map _).seq hdeclarations rdeclarations).before (candid_symbol .closeBrace) (reads_symbol .closeBrace)

theorem candid_schemas : Candid 0 (Schema.mk <$> many1 transaction) := by
  have hmore := candid_transaction.many reads_transaction (Readings.ofTree_proper _ TransactionTree.lexemes_ne_nil)
  exact ((candid_transaction.map _).seq hmore (reads_transaction.trees TransactionTree.lexemes_ne_nil)).map _

/-- Where the parser of schemas waits, the tokens it waits for are those that keep the text viable. -/
theorem viable_of_continues {us : List Lexeme} {expected : List Expectation}
    (h : Continues (Schema.mk <$> many1 transaction) (.ofTree SchemaTree.lexemes SchemaTree.schema) us expected) (t : Token) :
    (∃ e ∈ expected, e.Covers (some t)) ↔ Viable (tokensOf us ++ [t]) := by
  constructor
  · intro hlisted
    obtain ⟨more, _, tree, hmore, -⟩ := h.sound ⟨t, "", .nowhere⟩ hlisted
    exact ⟨tokensOf more, tree, by simp [hmore]⟩
  · rintro ⟨more, hmore⟩
    apply h.complete ⟨t, "", .nowhere⟩ (lexemesOf more)
    apply inLanguage_iff.1
    simpa using hmore

end Parley.Grammar

namespace Parley

/-- The entries of the list in the message of an error. -/
def ParseError.entries (e : ParseError) : List String := e.expected.map Expectation.describe

/-- A source of tokens that is not parsed has a syntax error whose entries are all known. They stand
for just those tokens with which the tokens before the error begin a text in the language, and for
the end of the source if these tokens are one. -/
theorem expected_lists_continuations {source : String} {ls : List Lexeme} (htokens : tokenize source = .ok ls)
    (hfail : ∀ s, parse source ≠ .ok s) :
    ∃ e, parse source = .error (.parse e) ∧
      (∀ entry ∈ e.entries, ∃ next, entry ∈ entriesFor next) ∧
      (∀ t : Token, (∃ entry ∈ e.entries, entry ∈ t.entries) ↔ Grammar.Viable (tokensOf (ls.take (e.position ls)) ++ [t])) ∧
      ("end of input" ∈ e.entries ↔ Grammar.InLanguage (tokensOf (ls.take (e.position ls)))) := by
  cases hparse : parseTokens source ls with
  | ok s => exact absurd (parse_ok_iff.2 ⟨ls, htokens, hparse⟩) (hfail s)
  | error e =>
    refine ⟨e, by simp [parse, htokens, hparse, Except.mapError], ?_⟩
    obtain ⟨us, vs, rfl, hspan, hfound, hcontinues⟩ := Grammar.candid_schemas.readAll_error Grammar.reads_schemas hparse
    rw [ParseError.position_cut (nodup_spans htokens) hspan hfound, List.take_left]
    have hentries : ∀ next, (∃ entry ∈ e.entries, entry ∈ entriesFor next) ↔ ∃ x ∈ e.expected, x.Covers next := by
      intro next
      simp [ParseError.entries, Expectation.Covers]
    refine ⟨?_, ?_, ?_⟩
    · intro entry hentry
      obtain ⟨x, hx, rfl⟩ := List.mem_map.1 hentry
      exact hcontinues.known x hx
    · intro t
      rw [← Grammar.viable_of_continues hcontinues t, ← hentries (some t)]
      rfl
    · have hend : "end of input" ∈ e.entries ↔ ∃ entry ∈ e.entries, entry ∈ entriesFor none := by
        simp [entriesFor]
      rw [hend, hentries none, hcontinues.ends]
      exact Grammar.inLanguage_iff.symm

/-- In `transaction T actor` the parser stops behind the name and lists the description and the brace
that could have come: with a brace the text can be gone on with, and without one it is not complete. -/
theorem expected_of_missing_brace :
    ∃ e, parse "transaction T actor" = .error (.parse e) ∧ e.entries = ["`\x7b`", "string"] ∧
      Grammar.Viable [.keyword .transaction, .name "T", .symbol .openBrace] ∧
      ¬Grammar.Viable [.keyword .transaction, .name "T", .keyword .actor] ∧
      ¬Grammar.InLanguage [.keyword .transaction, .name "T"] := by
  have htokens : tokenize "transaction T actor" = .ok [⟨.keyword .transaction, "transaction", ⟨0, 11, 1, 1⟩⟩,
      ⟨.name "T", "T", ⟨12, 1, 1, 13⟩⟩, ⟨.keyword .actor, "actor", ⟨14, 5, 1, 15⟩⟩] := by cbv
  have hread : parse "transaction T actor" = .error (.parse ⟨⟨14, 5, 1, 15⟩,
      [.token (.symbol .openBrace), .construct .string], some (.keyword .actor)⟩) := by
    have hfurthest : Grammar.schema [⟨.keyword .transaction, "transaction", ⟨0, 11, 1, 1⟩⟩,
        ⟨.name "T", "T", ⟨12, 1, 1, 13⟩⟩, ⟨.keyword .actor, "actor", ⟨14, 5, 1, 15⟩⟩] =
          ⟨none, some ⟨1, [.construct .string, .token (.symbol .openBrace)]⟩⟩ := rfl
    have horder : Expectation.inOrder [.construct .string, .token (.symbol .openBrace)] =
        [.token (.symbol .openBrace), .construct .string] := Parser.inOrder_pair (by decide)
    simp [parse, htokens, parseTokens, Parser.readAll, hfurthest, Parser.errorAt, horder, Except.mapError]
  have hfail : ∀ s, parse "transaction T actor" ≠ .ok s := by
    intro s hs
    rw [hread] at hs
    cases hs
  obtain ⟨e, he, -, htoken, hend⟩ := expected_lists_continuations htokens hfail
  obtain rfl : _ = e := SyntaxError.parse.inj (Except.error.inj (hread.symm.trans he))
  refine ⟨_, hread, rfl, ?_, ?_, ?_⟩
  · exact (htoken (.symbol .openBrace)).1 ⟨_, List.mem_cons_self, List.mem_cons_self⟩
  · exact fun hviable => absurd ((htoken (.keyword .actor)).2 hviable) (by decide)
  · exact fun hlanguage => absurd (hend.2 hlanguage) (by decide)

end Parley
