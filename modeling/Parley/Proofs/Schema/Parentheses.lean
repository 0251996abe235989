/-
The parentheses of an expression. A place in the grammar takes the expressions of some level and above
as they are, and weaker ones only in parentheses; so every text of an expression has a pair for each
operand that is too weak for its place. The canonical text has these pairs and no others.
-/
import Parley.Proofs.Schema.Spans
import Parley.Proofs.Token.Line

namespace Parley

open Scan

/-! ## Texts of expressions -/

def Token.isParenthesis : Token → Bool
  | .symbol .openParen | .symbol .closeParen => true
  | _ => false

def parentheses (ts : List Token) : Nat := ts.countP Token.isParenthesis

@[simp] theorem parentheses_nil : parentheses [] = 0 := rfl

@[simp] theorem parentheses_cons (t : Token) (ts : List Token) :
    parentheses (t :: ts) = parentheses ts + t.isParenthesis.toNat := by
  rw [parentheses, List.countP_cons]
  cases t.isParenthesis <;> rfl

@[simp] theorem parentheses_append (ts us : List Token) : parentheses (ts ++ us) = parentheses ts + parentheses us :=
  List.countP_append

/-- The parentheses among the tokens of a text; those inside string literals and comments are none. -/
def parenthesesIn (text : String) : Nat :=
  match tokenize text with
  | .ok ls => parentheses (tokensOf ls)
  | .error _ => 0

/-- A text is made of just some tokens. -/
def HasTokens (text : String) (ts : List Token) : Prop := ∃ ls, tokenize text = .ok ls ∧ tokensOf ls = ts

theorem HasTokens.parenthesesIn {text : String} {ts : List Token} (h : HasTokens text ts) :
    parenthesesIn text = parentheses ts := by
  obtain ⟨ls, htok, rfl⟩ := h
  rw [Parley.parenthesesIn, htok]

theorem HasTokens.of_holds {text : String} {ts : List Token} (h : Holds text ts []) : HasTokens text ts := by
  obtain ⟨xs, htext, rfl, hcut⟩ := h
  exact ⟨_, tokenize_ok_iff.2 ⟨xs, hcut, htext, rfl⟩, tokens_placed _ _⟩

theorem HasTokens.feed {a b : String} {ts us : List Token} (ha : HasTokens a ts) (hb : HasTokens b us) :
    HasTokens (a ++ "\n" ++ b) (ts ++ us) := by
  obtain ⟨ls, hls, rfl⟩ := ha
  obtain ⟨ms, hms, rfl⟩ := hb
  refine ⟨ls ++ ms.map (·.below a), by rw [tokenize_feed, hls, hms], ?_⟩
  rw [tokensOf_append]
  exact congrArg _ (List.map_map ..)

namespace Expr

/-- A text is read as an expression, to its end. -/
def ReadFrom (e : Expr) (text : String) : Prop :=
  ∃ ls, tokenize text = .ok ls ∧ (Grammar.expression ls).result = some (e, [])

theorem readFrom_iff {e : Expr} {text : String} :
    e.ReadFrom text ↔ ∃ t : OrTree, t.expr = e ∧ HasTokens text (tokensOf t.lexemes) := by
  constructor
  · rintro ⟨ls, htok, hread⟩
    obtain ⟨w, hw, t, rfl, ht⟩ := Grammar.reads_expression.sound hread
    rw [List.append_nil] at hw
    exact ⟨t, ht, ls, htok, congrArg tokensOf hw⟩
  · -- tokens are all that reading sees of a derivation
    rintro ⟨t, rfl, ls, htok, htokens⟩
    have hblind := (Grammar.blind_expression _ _ htokens).2
    have hread := Grammar.complete_expression (u := []) t Nat.one_pos
    rw [List.append_nil] at hread
    rw [hread] at hblind
    refine ⟨ls, htok, ?_⟩
    generalize (Grammar.expression ls).result = y at hblind ⊢
    rcases y with _ | ⟨e, rest⟩
    · cases hblind
    · cases hblind with
      | some h =>
        obtain rfl : rest = [] := List.map_eq_nil_iff.1 h.2
        exact congrArg (fun e => some (e, [])) h.1

/-! ## Levels -/

/-- The level of the grammar at which an expression stands as it is: a disjunction is read at the
lowest, and what needs no parentheses anywhere at the highest. -/
def level : Expr → Nat
  | binary op _ _ => op.precedence
  | not _ => 3
  | path _ | integer _ | string _ | boolean _ => 4

end Expr

namespace Operator

/-- The level that an operator takes to its left, which is its own unless it does not chain. -/
def leftLevel (op : Operator) : Nat := if op.isComparison then 4 else op.precedence

/-- The level that an operator takes to its right, where its own is in parentheses. -/
def rightLevel (op : Operator) : Nat := op.precedence + 1

theorem one_le_precedence (op : Operator) : 1 ≤ op.precedence := by
  cases op <;> decide

theorem precedence_le (op : Operator) : op.precedence ≤ 3 := by
  cases op <;> decide

theorem precedence_of_isComparison {op : Operator} (h : op.isComparison = true) : op.precedence = 3 := by
  cases op <;> first | rfl | cases h

end Operator

namespace Expr

theorem one_le_level (e : Expr) : 1 ≤ e.level := by
  cases e with
  | binary op => exact op.one_le_precedence
  | not | path | integer | string | boolean => exact Nat.succ_pos _

theorem precedence?_any (e : Expr) {n : Nat} (h : n ≤ 3) : e.precedence?.any (· < n) = decide (e.level < n) := by
  cases e with
  | binary op => rfl
  | not => exact (decide_eq_false (Nat.not_lt.2 h)).symm
  | path | integer | string | boolean => exact (decide_eq_false (Nat.not_lt.2 (Nat.le_succ_of_le h))).symm

theorem isAtom_eq (e : Expr) : (!e.isAtom) = decide (e.level < 4) := by
  cases e with
  | binary op => exact (decide_eq_true (Nat.lt_succ_of_le op.precedence_le)).symm
  | not | path | integer | string | boolean => rfl

theorem wrapsNegated_eq (e : Expr) : wrapsNegated e = decide (e.level < 3) := e.precedence?_any (Nat.le_refl 3)

theorem wrapsLeft_eq (op : Operator) (e : Expr) : wrapsLeft op e = decide (e.level < op.leftLevel) := by
  unfold wrapsLeft Operator.leftLevel
  split
  · exact e.isAtom_eq
  · exact e.precedence?_any op.precedence_le

theorem wrapsRight_eq (op : Operator) (e : Expr) : wrapsRight op e = decide (e.level < op.rightLevel) := by
  unfold wrapsRight Operator.rightLevel
  split
  · rw [e.isAtom_eq, Operator.precedence_of_isComparison ‹_›]
  · have hprecedence : op.precedence + 1 ≤ 3 := by
      cases op <;> first | decide | contradiction
    rw [← e.precedence?_any hprecedence]
    simp only [Nat.lt_succ_iff]

/-! ## Pairs that are needed -/

/-- The pairs of parentheses in the canonical text. -/
def pairs : Expr → Nat
  | path _ | integer _ | string _ | boolean _ => 0
  | not inner => inner.pairs + (wrapsNegated inner).toNat
  | binary op left right => left.pairs + (wrapsLeft op left).toNat + (right.pairs + (wrapsRight op right).toNat)

/-- The pairs in a place that takes the expressions of a level and above as they are. -/
def pairsAt (e : Expr) (n : Nat) : Nat := e.pairs + (decide (e.level < n)).toNat

theorem pairs_not (inner : Expr) : (not inner).pairs = inner.pairsAt 3 := by
  rw [pairs, wrapsNegated_eq, pairsAt]

theorem pairs_binary (op : Operator) (left right : Expr) :
    (binary op left right).pairs = left.pairsAt op.leftLevel + right.pairsAt op.rightLevel := by
  rw [pairs, wrapsLeft_eq, wrapsRight_eq, pairsAt, pairsAt]

theorem pairsAt_of_le {e : Expr} {n : Nat} (h : n ≤ e.level) : e.pairsAt n = e.pairs := by
  rw [pairsAt, decide_eq_false (Nat.not_lt.2 h)]
  rfl

theorem pairsAt_le (e : Expr) (n : Nat) : e.pairsAt n ≤ e.pairs + 1 := Nat.add_le_add_left (Bool.toNat_le _) _

/-- A place that takes less needs no fewer pairs. -/
theorem pairsAt_mono (e : Expr) {m n : Nat} (h : m ≤ n) : e.pairsAt m ≤ e.pairsAt n := by
  by_cases hm : e.level < m
  · rw [pairsAt, pairsAt, decide_eq_true hm, decide_eq_true (Nat.lt_of_lt_of_le hm h)]
  · rw [pairsAt_of_le (Nat.not_lt.1 hm)]
    exact Nat.le_add_right _ _

end Expr

/-! ## Every text has the pairs that are needed -/

theorem Comparison.rightLevel_operator (c : Comparison) : c.operator.rightLevel = 4 := by
  cases c <;> rfl

theorem Comparison.leftLevel_operator (c : Comparison) : c.operator.leftLevel = 4 := by
  cases c <;> rfl

mutual

theorem OperandTree.pairs_le : ∀ t : OperandTree, 2 * t.expr.pairsAt 4 ≤ parentheses (tokensOf t.lexemes)
  | .path _ _ | .integer _ | .string _ | .yes _ | .no _ => Nat.zero_le _
  | .parenthesized left inner right => by
    have hinner := inner.pairs_le
    have hle := inner.expr.pairsAt_le 4
    simp only [OperandTree.lexemes, OperandTree.expr, tokensOf_cons, tokensOf_append, tokensOf_nil, left.holds,
      right.holds, parentheses_cons, parentheses_append, parentheses_nil, Token.isParenthesis, Bool.toNat_true]
    omega

theorem CmpTree.pairs_le : ∀ t : CmpTree, 2 * t.expr.pairsAt 3 ≤ parentheses (tokensOf t.lexemes)
  | .operand only => by
    have honly := only.pairs_le
    have hmono := only.expr.pairsAt_mono (show 3 ≤ 4 by decide)
    rw [CmpTree.lexemes, CmpTree.expr]
    omega
  | .compared left op right => by
    have hleft := left.pairs_le
    have hright := right.pairs_le
    have hlevel : 3 ≤ (Expr.binary op.value.operator left.expr right.expr).level := by
      cases op.value <;> exact Nat.le_refl 3
    rw [CmpTree.expr, Expr.pairsAt_of_le hlevel, Expr.pairs_binary, op.value.leftLevel_operator,
      op.value.rightLevel_operator, CmpTree.lexemes, tokensOf_append, tokensOf_cons, parentheses_append, parentheses_cons]
    omega

theorem UnaryTree.pairs_le : ∀ t : UnaryTree, 2 * t.expr.pairsAt 3 ≤ parentheses (tokensOf t.lexemes)
  | .not mark inner => by
    have hinner := inner.pairs_le
    rw [UnaryTree.expr, Expr.pairsAt_of_le (Nat.le_refl 3), Expr.pairs_not, UnaryTree.lexemes, tokensOf_cons,
      parentheses_cons]
    omega
  | .cmp inner => inner.pairs_le

theorem AndTree.pairs_le : ∀ t : AndTree, 2 * t.expr.pairsAt 2 ≤ parentheses (tokensOf t.lexemes)
  | .mk head tail => by
    have hhead := head.pairs_le
    have htail := tail.pairs_le head.expr
    have hmono := head.expr.pairsAt_mono (show 2 ≤ 3 by decide)
    rw [AndTree.expr, AndTree.lexemes, tokensOf_append, parentheses_append]
    omega

theorem AndTail.pairs_le : ∀ (t : AndTail) (e : Expr),
    2 * (t.onto e).pairsAt 2 ≤ 2 * e.pairsAt 2 + parentheses (tokensOf t.lexemes)
  | .none, e => Nat.le_add_right _ _
  | .more mark item rest, e => by
    have hitem := item.pairs_le
    have hrest := rest.pairs_le (.binary .and e item.expr)
    rw [Expr.pairsAt_of_le (e := .binary .and e item.expr) (Nat.le_refl 2), Expr.pairs_binary] at hrest
    have hlevels : Operator.and.leftLevel = 2 ∧ Operator.and.rightLevel = 3 := ⟨rfl, rfl⟩
    rw [hlevels.1, hlevels.2] at hrest
    rw [AndTail.onto, AndTail.lexemes, tokensOf_cons, tokensOf_append, parentheses_cons, parentheses_append]
    omega

theorem OrTree.pairs_le : ∀ t : OrTree, 2 * t.expr.pairs ≤ parentheses (tokensOf t.lexemes)
  | .mk head tail => by
    have hhead := head.pairs_le
    have htail := tail.pairs_le head.expr
    have hle : head.expr.pairs ≤ head.expr.pairsAt 2 := Nat.le_add_right _ _
    rw [OrTree.expr, OrTree.lexemes, tokensOf_append, parentheses_append]
    omega

theorem OrTail.pairs_le : ∀ (t : OrTail) (e : Expr),
    2 * (t.onto e).pairs ≤ 2 * e.pairs + parentheses (tokensOf t.lexemes)
  | .none, e => Nat.le_add_right _ _
  | .more mark item rest, e => by
    have hitem := item.pairs_le
    have hrest := rest.pairs_le (.binary .or e item.expr)
    have hlevels : Operator.or.leftLevel = 1 ∧ Operator.or.rightLevel = 2 := ⟨rfl, rfl⟩
    rw [Expr.pairs_binary, hlevels.1, hlevels.2, e.pairsAt_of_le e.one_le_level] at hrest
    rw [OrTail.onto, OrTail.lexemes, tokensOf_cons, tokensOf_append, parentheses_cons, parentheses_append]
    omega

end

/-! ## The canonical text has no others -/

/-- A text holds tokens with some number of parentheses among them. -/
def HoldsParentheses (text : String) (n : Nat) : Prop :=
  ∃ ts, (∀ rest, Apart rest → Holds text ts rest) ∧ parentheses ts = n

namespace HoldsParentheses

variable {a b : String} {m n : Nat}

theorem token {t : Token} (h : t.Spellable) (hparen : t.isParenthesis = false) : HoldsParentheses t.spelling 0 :=
  ⟨[t], fun _ hrest => .token h hrest, by rw [parentheses_cons, hparen]; rfl⟩

theorem parenthesized (h : HoldsParentheses a n) (wrap : Bool) :
    HoldsParentheses (Expr.parenthesized wrap a) (n + 2 * wrap.toNat) := by
  cases wrap with
  | false => exact h
  | true =>
    obtain ⟨ts, hts, rfl⟩ := h
    exact ⟨_, fun rest _ => holds_parenthesized hts rest, by simp [Token.isParenthesis]⟩

theorem negated (h : HoldsParentheses a n) (hhead : a.toList.head?.any (· ≠ '=') = true) :
    HoldsParentheses ("!" ++ a) n := by
  obtain ⟨ts, hts, rfl⟩ := h
  exact ⟨_, fun _ hrest => holds_negated hhead (hts _ hrest), by simp [Token.isParenthesis]⟩

theorem operation (ha : HoldsParentheses a m) (hb : HoldsParentheses b n) (op : Operator) :
    HoldsParentheses (a ++ " " ++ op.spelling ++ " " ++ b) (m + n) := by
  obtain ⟨ts, hts, rfl⟩ := ha
  obtain ⟨us, hus, rfl⟩ := hb
  obtain ⟨mark, hmark, hparen⟩ :
      ∃ mark : Symbol, op.spelling = mark.spelling ∧ (Token.symbol mark).isParenthesis = false := by
    cases op
    exacts [⟨.and, rfl, rfl⟩, ⟨.or, rfl, rfl⟩, ⟨.equal, rfl, rfl⟩, ⟨.notEqual, rfl, rfl⟩, ⟨.less, rfl, rfl⟩,
      ⟨.greater, rfl, rfl⟩, ⟨.atMost, rfl, rfl⟩, ⟨.atLeast, rfl, rfl⟩]
  rw [hmark]
  exact ⟨_, fun _ hrest => holds_operation mark hts hus hrest, by simp [hparen]⟩

theorem dotted {segments : List String} (hne : segments ≠ []) (h : ∀ segment ∈ segments, IsName segment) :
    HoldsParentheses (".".intercalate segments) 0 := by
  obtain ⟨first, more, rfl⟩ := List.exists_cons_of_ne_nil hne
  obtain ⟨hfirst, hmore⟩ := List.forall_mem_cons.1 h
  refine ⟨_, fun _ hrest => holds_dotted hfirst hmore hrest, ?_⟩
  rw [parentheses, List.countP_eq_zero, List.forall_mem_cons]
  refine ⟨Bool.false_ne_true, fun t ht => ?_⟩
  obtain ⟨word, -, ht⟩ := List.mem_flatMap.1 ht
  rcases List.mem_pair.1 ht with rfl | rfl <;> exact Bool.false_ne_true

end HoldsParentheses

theorem Expr.holdsParentheses_print {e : Expr} (h : e.WellFormed) : HoldsParentheses e.print (2 * e.pairs) := by
  induction e with
  | path segments => exact .dotted h.1 h.2
  | integer value => exact .token (t := .integer value) h rfl
  | string value => exact .token (t := .string value) trivial rfl
  | boolean value =>
    cases value with
    | false => exact .token (t := .keyword .no) trivial rfl
    | true => exact .token (t := .keyword .yes) trivial rfl
  | not inner ih =>
    have hinner := ((ih h).parenthesized inner.wrapsNegated).negated (head_parenthesized _ (print_head h))
    rwa [← Nat.mul_add] at hinner
  | binary op left right ihl ihr =>
    have hleft := (ihl h.1).parenthesized (wrapsLeft op left)
    have hright := (ihr h.2).parenthesized (wrapsRight op right)
    have hparts := hleft.operation hright op
    rwa [← Nat.mul_add, ← Nat.mul_add, ← Nat.mul_add] at hparts

/-- The canonical text of an expression is read as the expression and has just the pairs that are needed. -/
theorem Expr.readFrom_print {e : Expr} (h : e.WellFormed) :
    e.ReadFrom e.print ∧ parenthesesIn e.print = 2 * e.pairs := by
  obtain ⟨t, ht, hholds⟩ := (readBack h).or
  obtain ⟨ts, hts, hcount⟩ := holdsParentheses_print h
  refine ⟨readFrom_iff.2 ⟨t, ht, .of_holds (hholds [] nofun)⟩, ?_⟩
  rw [(HasTokens.of_holds (hts [] nofun)).parenthesesIn, hcount]

theorem Expr.ReadFrom.pairs_le {e : Expr} {text : String} (h : e.ReadFrom text) : 2 * e.pairs ≤ parenthesesIn text := by
  obtain ⟨t, rfl, htokens⟩ := readFrom_iff.1 h
  rw [htokens.parenthesesIn]
  exact t.pairs_le

/-! ## Guards -/

/-- A text as the guard of the only statement of a transaction, on a line of its own. -/
def asGuard (text : String) : String :=
  "transaction X \x7b block Y \x7b goto Y when" ++ "\n" ++ text ++ "\n" ++ "\x7d \x7d"

/-- The statement that goes to `Y` under a guard. -/
def guardedBy (e : Expr) : Statement := ⟨.goto ⟨"Y", .nowhere⟩, some e, .nowhere⟩

/-- What is read as an expression is read as a guard. -/
theorem Expr.ReadFrom.parse_asGuard {e : Expr} {text : String} (h : e.ReadFrom text) :
    ∃ s, parse (asGuard text) = .ok s ∧ s.bare = (guardedBy e).alone := by
  obtain ⟨t, rfl, htext⟩ := readFrom_iff.1 h
  have hbefore : HasTokens "transaction X \x7b block Y \x7b goto Y when" [.keyword .transaction, .name "X",
      .symbol .openBrace, .keyword .block, .name "Y", .symbol .openBrace, .keyword .goto, .name "Y", .keyword .when] :=
    ⟨_, by cbv, by decide⟩
  have hbehind : HasTokens "\x7d \x7d" [.symbol .closeBrace, .symbol .closeBrace] := ⟨_, by cbv, by decide⟩
  obtain ⟨ls, htok, htokens⟩ := (hbefore.feed htext).feed hbehind
  let u : StatementTree := ⟨.goto (Leaf.of ()) (Leaf.of "Y"), some ⟨Leaf.of (), t⟩⟩
  have hsame : tokensOf u.alone.lexemes = tokensOf ls := by
    rw [htokens]
    simp [u, StatementTree.alone, SchemaTree.lexemes, SchemaTree.transactions, TransactionTree.lexemes, HeaderTree.lexemes,
      DeclarationTree.lexemes, BlockTree.lexemes, closedLexemes, optionalLeaf, optionalLexemes, StatementTree.lexemes,
      ActionTree.lexemes, GuardTree.lexemes]
  obtain ⟨t', ht', hbare⟩ := Grammar.derivation_of_tokens hsame
  exact ⟨t'.schema, parse_ok_iff.2 ⟨ls, htok, parseTokens_ok_iff.2 ⟨t', ht', rfl⟩⟩, hbare⟩

/-- A guard of a source is read from a text of its own there. -/
theorem exists_guardText {source : String} {s : Schema} (h : parse source = .ok s) {tx : Transaction}
    (htx : tx ∈ s.transactions) {st : Statement} (hst : st ∈ tx.statements) {e : Expr} (he : e ∈ st.guard) :
    ∃ (span : Span) (text : String), span.Denotes source text ∧ e.ReadFrom text := by
  obtain ⟨t, htok, rfl⟩ := parse_ok_iff_derivation.1 h
  obtain ⟨u, rfl, hu⟩ := t.partOf htx
  obtain ⟨v, rfl, hv⟩ := u.partOf_statement hst
  obtain ⟨g, hg, rfl⟩ := Option.map_eq_some_iff.1 he
  have hguard : g.condition.lexemes <:+: t.lexemes := by
    refine List.IsInfix.trans ⟨v.action.lexemes ++ [g.word.lexeme], [], ?_⟩ (hv.trans hu)
    simp [StatementTree.lexemes, hg, optionalLexemes, GuardTree.lexemes]
  have hne : g.condition.lexemes ≠ [] := fun hnil => by
    have hcomma : Symbol.comma ≠ .openParen ∧ Symbol.comma ≠ .not := by decide
    have hmark := Grammar.upcoming_expression g.condition [(Leaf.of () : SymbolLeaf .comma).lexeme] hcomma.1 hcomma.2
    rw [hnil] at hmark
    exact hmark rfl
  obtain ⟨text, hdenotes, ⟨ls, htext, htokens, -⟩, -⟩ := denotes_run htok hguard hne
  exact ⟨_, text, hdenotes, Expr.readFrom_iff.2 ⟨g.condition, rfl, ls, htext, htokens⟩⟩

/-- The canonical text of an expression is read back as it, and no text that is read as it has fewer
parentheses; without any one of its pairs it would be read otherwise or not at all. What is read as an
expression can stand as a guard, and every guard of a source is read from such a text. -/
theorem print_fewest_parentheses {e : Expr} (h : e.WellFormed) :
    e.ReadFrom e.print ∧
    (∀ text, e.ReadFrom text → parenthesesIn e.print ≤ parenthesesIn text) ∧
    (∀ us ws vs, HasTokens e.print (us ++ .symbol .openParen :: (ws ++ .symbol .closeParen :: vs)) →
      ∀ text, HasTokens text (us ++ (ws ++ vs)) → ¬ e.ReadFrom text) ∧
    (∀ text, e.ReadFrom text → ∃ s, parse (asGuard text) = .ok s ∧ s.bare = (guardedBy e).alone) ∧
    ∀ source s, parse source = .ok s → ∀ tx ∈ s.transactions, ∀ st ∈ tx.statements, e ∈ st.guard →
      ∃ (span : Span) (text : String), span.Denotes source text ∧ e.ReadFrom text ∧
        parenthesesIn e.print ≤ parenthesesIn text := by
  obtain ⟨hread, hcount⟩ := Expr.readFrom_print h
  have hfewest : ∀ text, e.ReadFrom text → parenthesesIn e.print ≤ parenthesesIn text := fun text htext => by
    rw [hcount]
    exact htext.pairs_le
  refine ⟨hread, hfewest, fun us ws vs hprint text htext hpart => ?_, fun text htext => htext.parse_asGuard,
    fun source s hs tx htx st hst he => ?_⟩
  · have hle := hfewest text hpart
    rw [hprint.parenthesesIn, htext.parenthesesIn] at hle
    simp only [parentheses_append, parentheses_cons, Token.isParenthesis, Bool.toNat_true] at hle
    omega
  · obtain ⟨span, text, hdenotes, htext⟩ := exists_guardText hs htx hst he
    exact ⟨span, text, hdenotes, htext, hfewest text htext⟩

/-- A negated conjunction of a disjunction and of a comparison with a negation to its left: three pairs
are needed, and the mark in the string is none. -/
theorem fewest_parentheses_of_nested :
    let e : Expr := .not (.binary .and (.binary .or (.path ["a"]) (.path ["b", "c"]))
      (.binary .equal (.not (.path ["d"])) (.string ")")))
    e.print = "!((a || b.c) && (!d) == \")\")" ∧ e.ReadFrom e.print ∧
      (∀ text, e.ReadFrom text → 6 ≤ parenthesesIn text) ∧
      ¬ e.ReadFrom "!(a || b.c && (!d) == \")\")" ∧ ¬ e.ReadFrom "!((a || b.c) && !d == \")\")" := by
  intro e
  have hwf : e.WellFormed := by
    simp [e, Expr.WellFormed]
    decide
  have hprint : e.print = "!((a || b.c) && (!d) == \")\")" := by decide
  obtain ⟨hread, hfewest, hneeded, -⟩ := print_fewest_parentheses hwf
  have htokens : HasTokens e.print [.symbol .not, .symbol .openParen, .symbol .openParen, .name "a", .symbol .or,
      .name "b", .symbol .dot, .name "c", .symbol .closeParen, .symbol .and, .symbol .openParen, .symbol .not, .name "d",
      .symbol .closeParen, .symbol .equal, .string ")", .symbol .closeParen] := by
    rw [hprint]
    exact ⟨_, by cbv, by decide⟩
  refine ⟨hprint, hread, fun text htext => ?_, ?_, ?_⟩
  · have hle := hfewest text htext
    rwa [htokens.parenthesesIn] at hle
  · exact hneeded [.symbol .not, .symbol .openParen] [.name "a", .symbol .or, .name "b", .symbol .dot, .name "c"] _
      htokens _ ⟨_, by cbv, by decide⟩
  · exact hneeded [.symbol .not, .symbol .openParen, .symbol .openParen, .name "a", .symbol .or, .name "b",
      .symbol .dot, .name "c", .symbol .closeParen, .symbol .and] [.symbol .not, .name "d"] _ htokens _
      ⟨_, by cbv, by decide⟩

end Parley
