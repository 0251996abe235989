/-
Where the parts of a schema stand in its source. Names denote themselves and lie apart, the
declarations of a category keep the order of the text, a type denotes a text of its own tokens, and
a statement one from which it is read back alone.
-/
import Parley.Proofs.Grammar.Parts
import Parley.Proofs.Recovery.Charge
import Parley.Proofs.Schema.Reprint
import Mathlib

namespace Parley

open Scan

/-! ## What spans say -/

def Span.Disjoint (s t : Span) : Prop := s.stop ≤ t.offset ∨ t.stop ≤ s.offset

/-- A type and all types in its arguments denote texts of just their tokens. -/
def TypeExpr.Placed (source : String) (type : TypeExpr) : Prop :=
  ∀ node ∈ type.nodes, ∃ text, node.span.Denotes source text ∧ Tight text node.tokens

/-- A return type that is written denotes a text of its own; one that is not is `unit`, at the name of
the function. -/
def Function.ReturnsPlaced (source : String) (ls : List Lexeme) (f : Function) : Prop :=
  f.paramsEnd ls = some (.symbol .arrow) ∧ f.returns.Placed source ∨
    f.paramsEnd ls = some (.symbol .openBrace) ∧ f.returns = ⟨"unit", [], f.span⟩

def Action.keyword : Action → Keyword
  | send _ => .send
  | call _ _ => .call
  | goto _ => .goto

/-- A text as the only statement of the only block of a transaction. -/
def aloneInBlock (text : String) : String := "transaction X \x7b block Y \x7b " ++ text ++ " \x7d \x7d"

/-- The schema with a statement and nothing else. -/
def Statement.alone (s : Statement) : Schema :=
  ⟨[⟨"X", none, [], [], [⟨"Y", false, [s], .nowhere⟩], [], .nowhere⟩]⟩

/-- A statement denotes a text that starts with its keyword and stops with its last token; there is
nothing else in it, and the text alone is read back as the statement. -/
def Statement.Placed (source : String) (s : Statement) : Prop :=
  ∃ text, s.span.Denotes source text ∧
    (∃ t : StatementTree, t.statement = s ∧ Tight text (tokensOf t.lexemes) ∧
      (tokensOf t.lexemes).head? = some (.keyword s.action.keyword)) ∧
    ∃ s', parse (aloneInBlock text) = .ok s' ∧ s'.bare = s.bare.alone

/-- All spans of a schema denote what they belong to. -/
structure Schema.Placed (source : String) (ls : List Lexeme) (s : Schema) : Prop where
  names : ∀ x ∈ s.names, x.2.Denotes source x.1
  apart : (s.names.map Prod.snd).Pairwise Span.Disjoint
  transactions : (s.transactions.map (·.span.offset)).Pairwise (· < ·)
  inOrder : ∀ tx ∈ s.transactions, ∀ category, ((tx.declared category).map (·.span.offset)).Pairwise (· < ·)
  fields : ∀ tx ∈ s.transactions, ∀ m ∈ tx.messages, ∀ f ∈ m.fields, f.type.Placed source
  params : ∀ tx ∈ s.transactions, ∀ f ∈ tx.functions, ∀ p ∈ f.params, p.type.Placed source
  returns : ∀ tx ∈ s.transactions, ∀ f ∈ tx.functions, f.ReturnsPlaced source ls
  statements : ∀ tx ∈ s.transactions, ∀ st ∈ tx.statements, st.Placed source

/-! ## Statements by themselves -/

/-- A leaf as it stands in a text by itself. -/
def StatementTree.alone (t : StatementTree) : SchemaTree where
  first :=
    { header := ⟨Leaf.of (), Leaf.of "X", none, Leaf.of ()⟩
      declarations := [.block ⟨none, Leaf.of (), Leaf.of "Y", Leaf.of (), [(t, none)], Leaf.of ()⟩]
      right := Leaf.of () }
  more := []

theorem StatementTree.bare_alone (t : StatementTree) : t.alone.schema.bare = t.statement.bare.alone := rfl

theorem StatementTree.parse_alone {t : StatementTree} {text : String}
    (h : ∀ rest, Apart rest → Holds text (tokensOf t.lexemes) rest) :
    ∃ s, parse (aloneInBlock text) = .ok s ∧ s.bare = t.statement.bare.alone := by
  have hword : ∀ r, Holds "transaction " [.keyword .transaction] r := fun r => .fixed [.word .transaction, .blank ' '] rfl rfl
  have hblock : ∀ r, Holds " \x7b block " [.symbol .openBrace, .keyword .block] r := fun r =>
    .fixed [.blank ' ', .mark .openBrace, .blank ' ', .word .block, .blank ' '] rfl rfl
  have hopen : ∀ r, Holds " \x7b " [.symbol .openBrace] r := fun r => .fixed [.blank ' ', .mark .openBrace, .blank ' '] rfl rfl
  have hclose : Holds " \x7d \x7d" [.symbol .closeBrace, .symbol .closeBrace] [] :=
    .fixed [.blank ' ', .mark .closeBrace, .blank ' ', .mark .closeBrace] rfl rfl
  have hX : ∀ r, Holds "X" [.name "X"] (" \x7b block ".toList ++ r) := fun r => .name (by decide) (.fixed rfl (by decide))
  have hY : ∀ r, Holds "Y" [.name "Y"] (" \x7b ".toList ++ r) := fun r => .name (by decide) (.fixed rfl (by decide))
  have htext : Holds text (tokensOf t.lexemes) (" \x7d \x7d".toList ++ []) := h _ (.fixed rfl (by decide))
  rw [← t.bare_alone]
  refine parse_of_holds (Holds.congr ((((((((hword _).append (hX _)).append (hblock _)).append
    (hY _)).append (hopen _)).append htext).append hclose)) ?_)
  simp [alone, SchemaTree.lexemes, SchemaTree.transactions, TransactionTree.lexemes, HeaderTree.lexemes,
    DeclarationTree.lexemes, BlockTree.lexemes, closedLexemes, optionalLeaf, optionalLexemes]

theorem StatementTree.head?_tokens (t : StatementTree) :
    (tokensOf t.lexemes).head? = some (.keyword t.statement.action.keyword) := by
  rcases t with ⟨word | word | word, guard⟩
  all_goals exact congrArg some word.holds

/-! ## Parts of a source -/

section Parts

variable {source : String} {ls : List Lexeme} (htok : tokenize source = .ok ls)

include htok

theorem placed_type {t : TypeTree} (h : t.lexemes <:+: ls) : t.type.Placed source := by
  intro node hnode
  obtain ⟨u, rfl, hpart⟩ := t.exists_node node hnode
  obtain ⟨text, hdenotes, htight, -⟩ := denotes_run htok (hpart.trans h) u.lexemes_ne_nil
  rw [← u.span_type] at hdenotes
  rw [u.tokens_lexemes] at htight
  exact ⟨text, hdenotes, htight⟩

theorem placed_field {f : Field} (h : PartOf BindingTree.lexemes BindingTree.field ls f) : f.type.Placed source := by
  obtain ⟨t, rfl, hpart⟩ := h
  exact placed_type htok (t.infix_type.trans hpart)

theorem placed_param {p : Param} (h : PartOf BindingTree.lexemes BindingTree.param ls p) : p.type.Placed source := by
  obtain ⟨t, rfl, hpart⟩ := h
  exact placed_type htok (t.infix_type.trans hpart)

theorem placed_returns {f : Function} (h : PartOf FunctionTree.lexemes FunctionTree.function ls f) :
    f.ReturnsPlaced source ls := by
  obtain ⟨t, rfl, hpart⟩ := h
  have hend := t.paramsEnd_eq (inOrder_of_tokenize htok).1 hpart
  cases hreturns : t.returns with
  | none =>
    rw [hreturns] at hend
    refine .inr ⟨hend, ?_⟩
    rw [FunctionTree.function, hreturns]
    rfl
  | some r =>
    rw [hreturns] at hend
    refine .inl ⟨hend, ?_⟩
    rw [FunctionTree.function, hreturns]
    refine placed_type htok (t := r.type) (List.IsInfix.trans ?_ hpart)
    refine ⟨t.word.lexeme :: t.name.lexeme :: t.left.lexeme :: (optionalLexemes ParamsTree.lexemes t.params ++
      [t.right.lexeme, r.arrow.lexeme]), t.openBrace.lexeme :: (optionalLeaf t.description ++ [t.closeBrace.lexeme]), ?_⟩
    simp [FunctionTree.lexemes, hreturns, optionalLexemes, ReturnsTree.lexemes]

theorem placed_statement {s : Statement} (h : PartOf StatementTree.lexemes StatementTree.statement ls s) : s.Placed source := by
  obtain ⟨t, rfl, hpart⟩ := h
  obtain ⟨text, hdenotes, htight, hholds⟩ := denotes_run htok hpart t.lexemes_ne_nil
  exact ⟨text, hdenotes, ⟨t, rfl, htight, t.head?_tokens⟩, t.parse_alone hholds⟩

end Parts

theorem SchemaTree.placed {source : String} {t : SchemaTree} (htok : tokenize source = .ok t.lexemes) :
    t.schema.Placed source t.lexemes := by
  have hascending : Ascending t.lexemes := (inOrder_of_tokenize htok).1
  constructor
  case names =>
    intro x hx
    obtain ⟨leaf, hleaf, rfl⟩ := List.mem_map.1 (t.names_perm.subset hx)
    exact denotes_name htok (t.named_sublist.subset (List.mem_map_of_mem hleaf)) leaf.holds
  case apart =>
    obtain ⟨xs, hcut, -, hxs⟩ := tokenize_ok_iff.1 htok
    have hpair := (placed_places .first xs hcut.text_ne_nil).2
    rw [hxs] at hpair
    have hleaves := hpair.sublist t.named_sublist
    rw [List.pairwise_map] at hleaves
    have hperm := t.names_perm.map Prod.snd
    refine (hperm.pairwise_iff fun h => h.symm).2 ?_
    rw [List.map_map, List.pairwise_map]
    exact hleaves.imp fun h => .inl h
  case transactions =>
    have hnames : (t.transactions.map fun u => u.header.name.lexeme).Sublist t.lexemes :=
      map_sublist_flatMap fun u _ => List.mem_append_left _ (List.mem_cons_of_mem _ List.mem_cons_self)
    have hleaves := hascending.sublist hnames
    rw [List.pairwise_map] at hleaves
    rw [SchemaTree.schema, List.map_map, List.pairwise_map]
    exact hleaves
  case inOrder =>
    intro tx hmem category
    obtain ⟨u, rfl, hpart⟩ := t.partOf hmem
    exact u.declared_lt (hascending.sublist hpart.sublist) category
  case fields =>
    intro tx hmem m hm f hf
    obtain ⟨u, rfl, hpart⟩ := t.partOf hmem
    obtain ⟨v, rfl, hv⟩ := u.partOf_message hm
    exact placed_field htok ((v.partOf hf).trans (hv.trans hpart))
  case params =>
    intro tx hmem f hf p hp
    obtain ⟨u, rfl, hpart⟩ := t.partOf hmem
    obtain ⟨v, rfl, hv⟩ := u.partOf_function hf
    exact placed_param htok ((v.partOf hp).trans (hv.trans hpart))
  case returns =>
    intro tx hmem f hf
    obtain ⟨u, rfl, hpart⟩ := t.partOf hmem
    exact placed_returns htok ((u.partOf_function hf).trans hpart)
  case statements =>
    intro tx hmem st hst
    obtain ⟨u, rfl, hpart⟩ := t.partOf hmem
    exact placed_statement htok ((u.partOf_statement hst).trans hpart)

/-- Every span of a schema that is parsed denotes what it belongs to in the source. -/
theorem spans_denote {source : String} {s : Schema} (h : parse source = .ok s) :
    ∃ ls, tokenize source = .ok ls ∧ s.Placed source ls := by
  obtain ⟨t, htok, rfl⟩ := parse_ok_iff_derivation.1 h
  exact ⟨t.lexemes, htok, SchemaTree.placed htok⟩

/-- The derivation of the second line of a source whose first line is `# é`. -/
def loopBelowComment : SchemaTree where
  first :=
    { header := ⟨.placed () "transaction" ⟨5, 11, 2, 1⟩, .placed "T" "T" ⟨17, 1, 2, 13⟩, none, .placed () "\x7b" ⟨18, 1, 2, 14⟩⟩
      declarations := [
        .block ⟨none, .placed () "block" ⟨19, 5, 2, 15⟩, .placed "A" "A" ⟨25, 1, 2, 21⟩,
          .placed () "\x7b" ⟨26, 1, 2, 22⟩,
          [(⟨.goto (.placed () "goto" ⟨27, 4, 2, 23⟩) (.placed "A" "A" ⟨32, 1, 2, 28⟩),
            some ⟨.placed () "when" ⟨34, 4, 2, 30⟩,
              .mk (.mk (.cmp (.operand (.path (.placed "x" "x" ⟨39, 1, 2, 35⟩) []))) .none) .none⟩⟩, none)],
          .placed () "\x7d" ⟨40, 1, 2, 36⟩⟩]
      right := .placed () "\x7d" ⟨41, 1, 2, 37⟩ }
  more := []

/-- A statement with a guard, and names, behind a character of two bytes. -/
theorem spans_of_loopBelowComment :
    let source := "# é\ntransaction T\x7bblock A\x7bgoto A when x\x7d\x7d"
    ∃ s ls, parse source = .ok s ∧ tokenize source = .ok ls ∧ s.Placed source ls ∧
      s.names = [("T", ⟨17, 1, 2, 13⟩), ("A", ⟨25, 1, 2, 21⟩), ("A", ⟨32, 1, 2, 28⟩)] ∧
      (⟨32, 1, 2, 28⟩ : Span).Denotes source "A" ∧
      ∃ st : Statement, st.span = ⟨27, 13, 2, 23⟩ ∧ st.Placed source := by
  intro source
  have htokens : tokenize source = .ok loopBelowComment.lexemes := by cbv
  have hparse : parse source = .ok loopBelowComment.schema :=
    parse_ok_iff_derivation.2 ⟨loopBelowComment, htokens, rfl⟩
  obtain ⟨ls, htok, hplaced⟩ := spans_denote hparse
  refine ⟨_, ls, hparse, htok, hplaced, rfl, ?_, ?_⟩
  · exact hplaced.names ("A", ⟨32, 1, 2, 28⟩) (List.mem_cons_of_mem _ (List.mem_cons_of_mem _ List.mem_cons_self))
  · exact ⟨_, rfl, hplaced.statements _ List.mem_cons_self _ List.mem_cons_self⟩

end Parley
