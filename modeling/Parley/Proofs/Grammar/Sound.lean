/-
Every parser of the grammar reads sentences of its production and returns what is read off the
derivation tree, spans included; and whatever stands before a mismatch is the beginning of such a
sentence.
-/
import Parley.Parser.Grammar
import Parley.Proofs.Grammar.Tree
import Parley.Proofs.Parser.Recursion

namespace Parley

variable {τ α : Type}

namespace Readings

/-- The sentences of derivation trees, with what is read off the trees. -/
def ofTree (lexemes : τ → List Lexeme) (value : τ → α) : Readings α := fun w a => ∃ t, lexemes t = w ∧ value t = a

theorem ofTree_proper {lexemes : τ → List Lexeme} (value : τ → α) (h : ∀ t, lexemes t ≠ []) :
    (ofTree lexemes value).Proper := by
  rintro w a ⟨t, rfl, -⟩
  exact h t

/-- Sentences in a row are the sentences of a list of trees. -/
theorem star_ofTree {lexemes : τ → List Lexeme} {value : τ → α} {w : List Lexeme} {as : List α}
    (h : (ofTree lexemes value).star w as) : ofTree (List.flatMap lexemes) (List.map value) w as := by
  obtain ⟨ws, rfl, hws⟩ := h
  induction hws with
  | nil => exact ⟨[], rfl, rfl⟩
  | cons h _ ih =>
    obtain ⟨t, rfl, rfl⟩ := h
    obtain ⟨ts, hts, rfl⟩ := ih
    exact ⟨t :: ts, by simp [hts], rfl⟩

/-- An optional sentence is the sentence of an optional tree. -/
theorem optional_ofTree {lexemes : τ → List Lexeme} {value : τ → α} {w : List Lexeme} {a : Option α}
    (h : (((ofTree lexemes value).map some).or (nothing none)) w a) :
    ofTree (optionalLexemes lexemes) (Option.map value) w a := by
  rcases h with ⟨_, ⟨t, rfl, rfl⟩, rfl⟩ | ⟨rfl, rfl⟩
  · exact ⟨some t, rfl, rfl⟩
  · exact ⟨none, rfl, rfl⟩

end Readings

namespace Parser.Reads

variable {p : Parser α} {lexemes : τ → List Lexeme} {value : τ → α}

theorem trees (h : Reads p (.ofTree lexemes value)) (hne : ∀ t, lexemes t ≠ []) :
    Reads (Parser.many p) (.ofTree (List.flatMap lexemes) (List.map value)) :=
  (h.many (Readings.ofTree_proper value hne)).mono fun _ _ => Readings.star_ofTree

theorem optionalTree (h : Reads p (.ofTree lexemes value)) :
    Reads (Parser.optional p) (.ofTree (optionalLexemes lexemes) (Option.map value)) :=
  h.optional.mono fun _ _ => Readings.optional_ofTree

end Parser.Reads

namespace Grammar

open Parley.Parser

/-! ## Terminals -/

theorem reads_keyword (word : Keyword) :
    Reads (keyword word) (.ofTree (fun k : KeywordLeaf word => [k.lexeme]) fun _ => ()) := by
  refine (Reads.token _).mono ?_
  rintro w a ⟨l, rfl, h⟩
  exact ⟨⟨(), l, by simpa using h⟩, rfl, rfl⟩

theorem reads_symbol (mark : Symbol) :
    Reads (symbol mark) (.ofTree (fun s : SymbolLeaf mark => [s.lexeme]) fun _ => ()) := by
  refine (Reads.token _).mono ?_
  rintro w a ⟨l, rfl, h⟩
  exact ⟨⟨(), l, by simpa using h⟩, rfl, rfl⟩

theorem reads_identifier :
    Reads identifier (.ofTree (fun n : NameLeaf => [n.lexeme]) fun n => (n.value, n.lexeme.span)) := by
  refine ((Reads.one _ (l := ⟨.name "", "", .nowhere⟩) (by rfl)).label _).mono ?_
  rintro w a ⟨l, rfl, h⟩
  dsimp only at h
  split at h
  · cases h; exact ⟨⟨_, l, ‹_›⟩, rfl, rfl⟩
  · cases h

theorem reads_string : Reads string (.ofTree (fun s : StringLeaf => [s.lexeme]) (·.value)) := by
  refine ((Reads.one _ (l := ⟨.string "", "", .nowhere⟩) (by rfl)).label _).mono ?_
  rintro w a ⟨l, rfl, h⟩
  dsimp only at h
  split at h
  · cases h; exact ⟨⟨_, l, ‹_›⟩, rfl, rfl⟩
  · cases h

theorem reads_name : Reads (Prod.fst <$> identifier) (.ofTree (fun n : NameLeaf => [n.lexeme]) (·.value)) := by
  refine (reads_identifier.map _).mono ?_
  rintro w a ⟨_, ⟨n, rfl, rfl⟩, rfl⟩
  exact ⟨n, rfl, rfl⟩

theorem reads_reference : Reads reference (.ofTree (fun n : NameLeaf => [n.lexeme]) NameLeaf.reference) := by
  refine (reads_identifier.map _).mono ?_
  rintro w a ⟨_, ⟨n, rfl, rfl⟩, rfl⟩
  exact ⟨n, rfl, rfl⟩

theorem reads_comparisonOp :
    Reads comparisonOp (.ofTree (fun c : ComparisonLeaf => [c.lexeme]) (·.value.operator)) := by
  refine (Reads.one _ (l := ⟨.symbol .equal, "", .nowhere⟩) (by rfl)).mono ?_
  rintro w a ⟨l, rfl, h⟩
  dsimp only at h
  split at h
  · rename_i mark hl
    cases mark <;> simp only [comparison?, Option.some.injEq, reduceCtorEq] at h <;> subst h
    · exact ⟨⟨.equal, l, hl⟩, rfl, rfl⟩
    · exact ⟨⟨.notEqual, l, hl⟩, rfl, rfl⟩
    · exact ⟨⟨.atMost, l, hl⟩, rfl, rfl⟩
    · exact ⟨⟨.atLeast, l, hl⟩, rfl, rfl⟩
    · exact ⟨⟨.less, l, hl⟩, rfl, rfl⟩
    · exact ⟨⟨.greater, l, hl⟩, rfl, rfl⟩
  · cases h

/-! ## Brackets and separators -/

section Brackets

variable {p : Parser α} {L : Readings α}

def between (left right : Symbol) (L : Readings α) : Readings α := fun w a =>
  ∃ (l : SymbolLeaf left) (r : SymbolLeaf right) (v : List Lexeme), w = l.lexeme :: (v ++ [r.lexeme]) ∧ L v a

theorem reads_between (left right : Symbol) (h : Reads p L) :
    Reads (symbol left *> p <* symbol right) (between left right L) := by
  refine (((reads_symbol left).behind h).before (reads_symbol right)).mono ?_
  rintro w a ⟨_, _, _, rfl, ⟨_, v, _, rfl, ⟨l, rfl, -⟩, hv⟩, r, rfl, -⟩
  exact ⟨l, r, v, by simp, hv⟩

variable {lexemes : τ → List Lexeme} {value : τ → α}

/-- Further items, each after a mark. -/
theorem reads_pairs (mark : Symbol) (h : Reads p (.ofTree lexemes value)) :
    Reads (many (symbol mark *> p))
      (.ofTree (fun xs : List (SymbolLeaf mark × τ) => xs.flatMap fun x => x.1.lexeme :: lexemes x.2)
        fun xs => xs.map fun x => value x.2) := by
  refine Reads.trees (((reads_symbol mark).behind h).mono ?_) (fun _ => List.cons_ne_nil _ _)
  rintro w a ⟨_, _, _, rfl, ⟨m, rfl, -⟩, t, rfl, rfl⟩
  exact ⟨(m, t), rfl, rfl⟩

theorem reads_separated (h : Reads p (.ofTree lexemes value)) :
    Reads (sepBy1 p (symbol .comma)) (.ofTree (Separated.lexemes lexemes) (Separated.values value)) := by
  refine ((h.map _).seq (reads_pairs .comma h)).mono ?_
  rintro w as ⟨_, _, _, _, rfl, ⟨_, ⟨t, rfl, rfl⟩, rfl⟩, ⟨xs, rfl, rfl⟩, rfl⟩
  exact ⟨⟨t, xs⟩, rfl, rfl⟩

theorem reads_sepBy (h : Reads p (.ofTree lexemes value)) :
    Reads (sepBy p (symbol .comma))
      (.ofTree (optionalLexemes (Separated.lexemes lexemes)) fun s => s.elim [] (Separated.values value)) := by
  refine ((reads_separated h).orElse (Reads.nothing [])).mono ?_
  rintro w as (⟨s, rfl, rfl⟩ | ⟨rfl, rfl⟩)
  · exact ⟨some s, rfl, rfl⟩
  · exact ⟨none, rfl, rfl⟩

theorem reads_closed (mark : Symbol) (h : Reads p (.ofTree lexemes value)) :
    Reads (p <* optional (symbol mark))
      (.ofTree (closedLexemes lexemes) fun x : τ × Option (SymbolLeaf mark) => value x.1) := by
  refine (h.before (reads_symbol mark).optionalTree).mono ?_
  rintro w a ⟨_, _, _, rfl, ⟨t, rfl, rfl⟩, m, rfl, -⟩
  exact ⟨(t, m), rfl, rfl⟩

end Brackets

/-! ## Parsers with a hole in brackets or lists -/

section Holes

variable {p q : Parser α} {L : Readings α} {n : Nat}

theorem agree_behind (mark : Symbol) (h : ∀ ts, ts.length < n → p ts = q ts) :
    Agree n (symbol mark *> p) (symbol mark *> q) := Agree.behind_one h

theorem agree_between (left right : Symbol) (hq : Reads q L) (h : ∀ ts, ts.length < n → p ts = q ts) :
    Agree n (symbol left *> p <* symbol right) (symbol left *> q <* symbol right) :=
  (agree_behind left h).before ((reads_symbol left).behind hq)

theorem agree_separated {lexemes : τ → List Lexeme} {value : τ → α} (hq : Reads q (.ofTree lexemes value))
    (h : Agree n p q) : Agree n (sepBy1 p (symbol .comma)) (sepBy1 q (symbol .comma)) := by
  refine (h.map _).seq (hq.map _) (Agree.many ?_ ((reads_symbol .comma).behind hq) ?_)
  · exact agree_behind .comma fun ts hts => h ts (by omega)
  · rintro w a ⟨_, _, _, rfl, ⟨m, rfl, -⟩, -⟩
    exact List.cons_ne_nil _ _

end Holes

/-! ## Types -/

/-- The parser of types with a hole for the types inside. -/
def typeBody (type : Parser TypeExpr) : Parser TypeExpr :=
  (fun ((name, args), span) => ⟨name, args.getD [], span⟩) <$>
    located (Prod.mk <$> (Prod.fst <$> identifier) <*> optional (angled (sepBy1 type (symbol .comma))))

theorem TypeTrees.of_pairs (xs : List (SymbolLeaf .comma × TypeTree)) :
    ∃ ts : TypeTrees, ts.lexemes = (xs.flatMap fun x => x.1.lexeme :: x.2.lexemes) ∧
      ts.types = xs.map fun x => x.2.type := by
  induction xs with
  | nil => exact ⟨.none, rfl, rfl⟩
  | cons x xs ih =>
    obtain ⟨ts, hl, ht⟩ := ih
    exact ⟨.more x.1 x.2 ts, by simp [TypeTrees.lexemes, hl], by simp [TypeTrees.types, ht]⟩

theorem reads_typeBody {p : Parser TypeExpr} (h : Reads p (.ofTree TypeTree.lexemes TypeTree.type)) :
    Reads (typeBody p) (.ofTree TypeTree.lexemes TypeTree.type) := by
  have hargs := (reads_between .less .greater (reads_separated h)).optional
  refine ((((reads_name.map Prod.mk).seq hargs).located).map _).mono ?_
  rintro w a ⟨⟨x, span⟩, ⟨⟨_, _, _, args, rfl, ⟨_, ⟨n, rfl, rfl⟩, rfl⟩, hargs, rfl⟩, rfl⟩, rfl⟩
  rcases hargs with ⟨_, ⟨l, r, _, rfl, s, rfl, rfl⟩, rfl⟩ | ⟨rfl, rfl⟩
  · obtain ⟨ts, hl, ht⟩ := TypeTrees.of_pairs s.more
    refine ⟨.applied n l s.first ts r, by simp [TypeTree.lexemes, Separated.lexemes, hl], ?_⟩
    rw [spanRead_nil (by simp)]
    simp [TypeTree.type, ht, Separated.values]
  · refine ⟨.plain n, rfl, ?_⟩
    rw [spanRead_nil (by simp)]
    simp [TypeTree.type, Span.upTo, Span.stop]

theorem productive_typeBody : Productive typeBody (.ofTree TypeTree.lexemes TypeTree.type) where
  inhabited := ⟨_, _, .plain ⟨"", ⟨.name "", "", .nowhere⟩, rfl⟩, rfl, rfl⟩
  reads := reads_typeBody
  guarded {p q n} hq hpq := by
    refine ((Agree.seq (Agree.refl n _) (reads_name.map _) (Agree.optional ?_)).located).map _
    refine agree_between .less .greater (reads_separated hq) fun ts hts => ?_
    exact agree_separated hq (fun us hus => hpq us (by omega)) ts (Nat.le_refl _)

theorem reads_type : Reads type (.ofTree TypeTree.lexemes TypeTree.type) :=
  productive_typeBody.recursive.label _

/-! ## Expressions -/

theorem AndTail.of_pairs (xs : List (SymbolLeaf .and × UnaryTree)) :
    ∃ t : AndTail, t.lexemes = (xs.flatMap fun x => x.1.lexeme :: x.2.lexemes) ∧
      ∀ e, t.onto e = (xs.map fun x => x.2.expr).foldl (.binary .and) e := by
  induction xs with
  | nil => exact ⟨.none, rfl, fun _ => rfl⟩
  | cons x xs ih =>
    obtain ⟨t, hl, ht⟩ := ih
    exact ⟨.more x.1 x.2 t, by simp [AndTail.lexemes, hl], fun e => by simp [AndTail.onto, ht]⟩

theorem OrTail.of_pairs (xs : List (SymbolLeaf .or × AndTree)) :
    ∃ t : OrTail, t.lexemes = (xs.flatMap fun x => x.1.lexeme :: x.2.lexemes) ∧
      ∀ e, t.onto e = (xs.map fun x => x.2.expr).foldl (.binary .or) e := by
  induction xs with
  | nil => exact ⟨.none, rfl, fun _ => rfl⟩
  | cons x xs ih =>
    obtain ⟨t, hl, ht⟩ := ih
    exact ⟨.more x.1 x.2 t, by simp [OrTail.lexemes, hl], fun e => by simp [OrTail.onto, ht]⟩

/-- The truth value that a keyword stands for. -/
def truth? : Keyword → Option Expr
  | .yes => some (.boolean true)
  | .no => some (.boolean false)
  | _ => none

/-- The expression that a token stands for by itself. -/
def literal? : Token → Option Expr
  | .integer value => some (.integer value)
  | .string value => some (.string value)
  | .keyword word => truth? word
  | .symbol _ | .name _ => none

theorem literal_eq : literal = satisfy .other fun l => literal? l.token := by
  unfold literal
  congr 1
  funext l
  rcases l with ⟨t, text, span⟩
  cases t with
  | keyword word => cases word <;> rfl
  | symbol | integer | string | name => rfl

theorem reads_literal :
    Reads literal (fun w e => ∃ t : OperandTree, t.lexemes = w ∧ t.expr = e) := by
  rw [literal_eq]
  refine (Reads.one _ (l := ⟨.keyword .yes, "", .nowhere⟩) (by rfl)).mono ?_
  rintro w e ⟨l, rfl, h⟩
  dsimp only at h
  cases htoken : l.token with
  | integer value =>
    rw [htoken] at h; cases h
    exact ⟨.integer ⟨value, l, htoken⟩, by simp [OperandTree.lexemes], rfl⟩
  | string value =>
    rw [htoken] at h; cases h
    exact ⟨.string ⟨value, l, htoken⟩, by simp [OperandTree.lexemes], rfl⟩
  | keyword word =>
    rw [htoken] at h
    cases word <;> cases h
    · exact ⟨.yes ⟨(), l, htoken⟩, by simp [OperandTree.lexemes], rfl⟩
    · exact ⟨.no ⟨(), l, htoken⟩, by simp [OperandTree.lexemes], rfl⟩
  | symbol | name => rw [htoken] at h; cases h

theorem reads_path : Reads path (.ofTree OperandTree.lexemes OperandTree.expr) := by
  refine (((reads_name.map List.cons).seq (reads_pairs .dot reads_name)).map _).mono ?_
  rintro w e ⟨_, ⟨_, _, _, _, rfl, ⟨_, ⟨n, rfl, rfl⟩, rfl⟩, ⟨xs, rfl, rfl⟩, rfl⟩, rfl⟩
  exact ⟨.path n xs, by simp [OperandTree.lexemes], by simp [OperandTree.expr]⟩

section Expressions

variable {expr : Parser Expr} (h : Reads expr (.ofTree OrTree.lexemes OrTree.expr))

include h

theorem reads_operand : Reads (operand expr) (.ofTree OperandTree.lexemes OperandTree.expr) := by
  unfold operand
  simp only [choice_cons, choice_nil, orElse_fail]
  refine ((reads_literal.orElse (reads_path.orElse (reads_between .openParen .closeParen h))).label _).mono ?_
  rintro w e (hl | hp | ⟨l, r, _, rfl, t, rfl, rfl⟩)
  · exact hl
  · exact hp
  · exact ⟨.parenthesized l t r, by simp [OperandTree.lexemes], by simp [OperandTree.expr]⟩

theorem reads_comparison : Reads (comparison expr) (.ofTree CmpTree.lexemes CmpTree.expr) := by
  have ho := reads_operand h
  refine ((ho.map _).seq ((reads_comparisonOp.map _).seq ho).optional).mono ?_
  rintro w e ⟨_, _, _, _, rfl, ⟨_, ⟨t, rfl, rfl⟩, rfl⟩,
    ⟨_, ⟨_, _, _, _, rfl, ⟨_, ⟨c, rfl, rfl⟩, rfl⟩, ⟨t', rfl, rfl⟩, rfl⟩, rfl⟩ | ⟨rfl, rfl⟩, rfl⟩
  · exact ⟨.compared t c t', by simp [CmpTree.lexemes], by simp [CmpTree.expr]⟩
  · exact ⟨.operand t, by simp [CmpTree.lexemes], by simp [CmpTree.expr]⟩

theorem reads_negation : Reads (negation expr) (.ofTree UnaryTree.lexemes UnaryTree.expr) := by
  refine ((((reads_symbol .not).trees fun _ => List.cons_ne_nil _ _).map _).seq (reads_comparison h)).mono ?_
  rintro w e ⟨_, _, _, _, rfl, ⟨_, ⟨marks, rfl, rfl⟩, rfl⟩, ⟨t, rfl, rfl⟩, rfl⟩
  induction marks with
  | nil => exact ⟨.cmp t, by simp [UnaryTree.lexemes], by simp [UnaryTree.expr]⟩
  | cons m marks ih =>
    obtain ⟨u, hl, he⟩ := ih
    exact ⟨.not m u, by simp [UnaryTree.lexemes, hl], by simp [UnaryTree.expr, he]⟩

theorem reads_conjunction : Reads (conjunction expr) (.ofTree AndTree.lexemes AndTree.expr) := by
  have hn := reads_negation h
  refine ((hn.map _).seq (reads_pairs .and hn)).mono ?_
  rintro w e ⟨_, _, _, _, rfl, ⟨_, ⟨t, rfl, rfl⟩, rfl⟩, ⟨xs, rfl, rfl⟩, rfl⟩
  obtain ⟨tail, hl, ht⟩ := AndTail.of_pairs xs
  exact ⟨.mk t tail, by simp [AndTree.lexemes, hl], by simp [AndTree.expr, ht]⟩

theorem reads_disjunction : Reads (disjunction expr) (.ofTree OrTree.lexemes OrTree.expr) := by
  have hc := reads_conjunction h
  refine ((hc.map _).seq (reads_pairs .or hc)).mono ?_
  rintro w e ⟨_, _, _, _, rfl, ⟨_, ⟨t, rfl, rfl⟩, rfl⟩, ⟨xs, rfl, rfl⟩, rfl⟩
  obtain ⟨tail, hl, ht⟩ := OrTail.of_pairs xs
  exact ⟨.mk t tail, by simp [OrTree.lexemes, hl], by simp [OrTree.expr, ht]⟩

end Expressions

section ExpressionHoles

variable {n : Nat}

theorem agree_leftGrouped {item item' : Parser Expr} {lexemes : τ → List Lexeme} {value : τ → Expr}
    (op : Operator) (mark : Symbol) (hr : Reads item' (.ofTree lexemes value)) (ha : Agree n item item') :
    Agree n (leftGrouped op mark item) (leftGrouped op mark item') := by
  refine (ha.map _).seq (hr.map _) ((agree_behind mark fun ts hts => ha ts (by omega)).many
    ((reads_symbol mark).behind hr) ?_)
  rintro w a ⟨_, _, _, rfl, ⟨m, rfl, -⟩, -⟩
  exact List.cons_ne_nil _ _

variable {expr expr' : Parser Expr} (h : Reads expr' (.ofTree OrTree.lexemes OrTree.expr))
  (hagree : ∀ ts, ts.length < n → expr ts = expr' ts)

include h hagree

theorem agree_operand : Agree n (operand expr) (operand expr') := by
  unfold operand
  simp only [choice_cons, choice_nil, orElse_fail]
  exact ((Agree.refl n _).orElse ((Agree.refl n _).orElse (agree_between .openParen .closeParen h hagree))).label _

theorem agree_comparison : Agree n (comparison expr) (comparison expr') := by
  have ha := agree_operand h hagree
  exact (ha.map _).seq ((reads_operand h).map _) ((Agree.refl n _).seq (reads_comparisonOp.map _) ha).optional

theorem agree_negation : Agree n (negation expr) (negation expr') :=
  (Agree.refl n _).seq (((reads_symbol .not).trees fun _ => List.cons_ne_nil _ _).map _) (agree_comparison h hagree)

theorem agree_disjunction : Agree n (disjunction expr) (disjunction expr') :=
  agree_leftGrouped .or .or (reads_conjunction h)
    (agree_leftGrouped .and .and (reads_negation h) (agree_negation h hagree))

end ExpressionHoles

theorem productive_disjunction : Productive disjunction (.ofTree OrTree.lexemes OrTree.expr) where
  inhabited :=
    ⟨_, _, .mk (.mk (.cmp (.operand (.integer ⟨0, ⟨.integer 0, "", .nowhere⟩, rfl⟩))) .none) .none, rfl, rfl⟩
  reads := reads_disjunction
  guarded := agree_disjunction

theorem reads_expression : Reads expression (.ofTree OrTree.lexemes OrTree.expr) :=
  productive_disjunction.recursive.label _

/-! ## Statements -/

theorem reads_action : Reads action (.ofTree ActionTree.lexemes ActionTree.action) := by
  unfold action
  simp only [choice_cons, choice_nil, orElse_fail]
  have hsend := ((reads_keyword .send).behind reads_reference).map Action.send
  have hgoto := ((reads_keyword .goto).behind reads_reference).map Action.goto
  have hargs := reads_between .openParen .closeParen (reads_sepBy reads_expression)
  have hcall := (((reads_keyword .call).behind reads_reference).map Action.call).seq hargs
  refine (hsend.orElse (hcall.orElse hgoto)).mono ?_
  rintro w a (⟨_, ⟨_, _, _, rfl, ⟨k, rfl, -⟩, n, rfl, rfl⟩, rfl⟩ |
    ⟨_, _, _, _, rfl, ⟨_, ⟨_, _, _, rfl, ⟨k, rfl, -⟩, n, rfl, rfl⟩, rfl⟩, ⟨l, r, _, rfl, args, rfl, rfl⟩, rfl⟩ |
    ⟨_, ⟨_, _, _, rfl, ⟨k, rfl, -⟩, n, rfl, rfl⟩, rfl⟩)
  · exact ⟨.send k n, rfl, rfl⟩
  · exact ⟨.call k n l args r, by simp [ActionTree.lexemes], rfl⟩
  · exact ⟨.goto k n, rfl, rfl⟩

theorem reads_guard : Reads (keyword .when *> expression) (.ofTree GuardTree.lexemes fun g => g.condition.expr) := by
  refine ((reads_keyword .when).behind reads_expression).mono ?_
  rintro w a ⟨_, _, _, rfl, ⟨k, rfl, -⟩, t, rfl, rfl⟩
  exact ⟨⟨k, t⟩, rfl, rfl⟩

theorem reads_statement : Reads statement (.ofTree StatementTree.lexemes StatementTree.statement) := by
  refine ((((reads_action.map _).seq reads_guard.optionalTree).located.map _).label _).mono ?_
  rintro w s ⟨⟨x, span⟩, ⟨⟨_, _, _, guard, rfl, ⟨_, ⟨a, rfl, rfl⟩, rfl⟩, ⟨g, rfl, rfl⟩, rfl⟩, rfl⟩, rfl⟩
  refine ⟨⟨a, g⟩, rfl, ?_⟩
  have hne := StatementTree.lexemes_ne_nil ⟨a, g⟩
  have hspan := spanRead_nil hne
  simp only [StatementTree.lexemes] at hne hspan
  simp only [StatementTree.statement, StatementTree.lexemes, hspan, List.head?_eq_some_head hne,
    List.getLast?_eq_some_getLast hne, Option.elim_some]

/-! ## Declarations -/

theorem reads_role : Reads role (.ofTree RoleTree.lexemes fun t => t.value.text) := by
  have hvalue : Reads (orElse string (Prod.fst <$> identifier)) (.ofTree (fun v : RoleValue => [v.lexeme]) RoleValue.text) := by
    refine (reads_string.orElse reads_name).mono ?_
    rintro w a (⟨s, rfl, rfl⟩ | ⟨n, rfl, rfl⟩)
    · exact ⟨.string s, rfl, rfl⟩
    · exact ⟨.name n, rfl, rfl⟩
  refine ((((reads_keyword .role).behind (reads_symbol .colon)).behind hvalue).before
    (reads_symbol .comma).optionalTree).label _ |>.mono ?_
  rintro w a ⟨_, _, _, rfl, ⟨_, _, _, rfl, ⟨_, _, _, rfl, ⟨k, rfl, -⟩, c, rfl, -⟩, v, rfl, rfl⟩, m, rfl, -⟩
  exact ⟨⟨k, c, v, m⟩, rfl, rfl⟩

theorem reads_actor : Reads actor (.ofTree ActorTree.lexemes ActorTree.actor) := by
  refine (((((reads_keyword .actor).behind reads_identifier).map _).seq
    (reads_between .openBrace .closeBrace reads_role.optionalTree)).label _).mono ?_
  rintro w a ⟨_, _, _, _, rfl, ⟨_, ⟨_, _, _, rfl, ⟨k, rfl, -⟩, n, rfl, rfl⟩, rfl⟩, ⟨l, r, _, rfl, role, rfl, rfl⟩, rfl⟩
  exact ⟨⟨k, n, l, role, r⟩, by simp [ActorTree.lexemes], rfl⟩

theorem reads_field : Reads field (.ofTree BindingTree.lexemes BindingTree.field) := by
  refine ((((reads_identifier.before (reads_symbol .colon)).map _).seq reads_type).label _).mono ?_
  rintro w a ⟨_, _, _, _, rfl, ⟨_, ⟨_, _, _, rfl, ⟨n, rfl, rfl⟩, c, rfl, -⟩, rfl⟩, ⟨t, rfl, rfl⟩, rfl⟩
  exact ⟨⟨n, c, t⟩, rfl, rfl⟩

theorem reads_param : Reads param (.ofTree BindingTree.lexemes BindingTree.param) := by
  refine ((((reads_identifier.before (reads_symbol .colon)).map _).seq reads_type).label _).mono ?_
  rintro w a ⟨_, _, _, _, rfl, ⟨_, ⟨_, _, _, rfl, ⟨n, rfl, rfl⟩, c, rfl, -⟩, rfl⟩, ⟨t, rfl, rfl⟩, rfl⟩
  exact ⟨⟨n, c, t⟩, rfl, rfl⟩

theorem reads_message : Reads message (.ofTree MessageTree.lexemes MessageTree.message) := by
  have hfields := (reads_closed .comma reads_field).trees
    fun x => List.append_ne_nil_of_left_ne_nil (List.cons_ne_nil _ _) _
  refine (((((((reads_keyword .message).behind reads_identifier).map _).seq
    (reads_reference.before (reads_symbol .arrow))).seq reads_reference).seq
    (reads_between .openBrace .closeBrace hfields)).label _).mono ?_
  rintro w a ⟨_, _, _, _, rfl, ⟨_, _, _, _, rfl, ⟨_, _, _, _, rfl,
    ⟨_, ⟨_, _, _, rfl, ⟨k, rfl, -⟩, n, rfl, rfl⟩, rfl⟩, ⟨_, _, _, rfl, ⟨s, rfl, rfl⟩, ar, rfl, -⟩, rfl⟩,
    ⟨t, rfl, rfl⟩, rfl⟩, ⟨l, r, _, rfl, fs, rfl, rfl⟩, rfl⟩
  exact ⟨⟨k, n, s, ar, t, l, fs, r⟩, by simp [MessageTree.lexemes], rfl⟩

theorem reads_params :
    Reads (sepEndBy param (symbol .comma))
      (.ofTree (optionalLexemes ParamsTree.lexemes) fun t => t.elim [] fun ps => ps.params.values BindingTree.param) := by
  refine (((reads_separated reads_param).before (reads_symbol .comma).optionalTree).orElse (Reads.nothing [])).mono ?_
  rintro w as (⟨_, _, _, rfl, ⟨s, rfl, rfl⟩, m, rfl, -⟩ | ⟨rfl, rfl⟩)
  · exact ⟨some ⟨s, m⟩, rfl, rfl⟩
  · exact ⟨none, rfl, rfl⟩

theorem reads_returns : Reads (symbol .arrow *> type) (.ofTree ReturnsTree.lexemes fun t => t.type.type) := by
  refine ((reads_symbol .arrow).behind reads_type).mono ?_
  rintro w a ⟨_, _, _, rfl, ⟨k, rfl, -⟩, t, rfl, rfl⟩
  exact ⟨⟨k, t⟩, rfl, rfl⟩

theorem reads_function : Reads function (.ofTree FunctionTree.lexemes FunctionTree.function) := by
  refine (((((((reads_keyword .function).behind reads_identifier).map _).seq
    (reads_between .openParen .closeParen reads_params)).seq reads_returns.optionalTree).seq
    (reads_between .openBrace .closeBrace reads_string.optionalTree)).label _).mono ?_
  rintro w a ⟨_, _, _, _, rfl, ⟨_, _, _, _, rfl, ⟨_, _, _, _, rfl,
    ⟨_, ⟨_, _, _, rfl, ⟨k, rfl, -⟩, n, rfl, rfl⟩, rfl⟩, ⟨l, r, _, rfl, ps, rfl, rfl⟩, rfl⟩,
    ⟨ret, rfl, rfl⟩, rfl⟩, ⟨l', r', _, rfl, d, rfl, rfl⟩, rfl⟩
  refine ⟨⟨k, n, l, ps, r, ret, l', d, r'⟩, by simp [FunctionTree.lexemes, optionalLeaf], ?_⟩
  rcases ret with _ | ret <;> rfl

theorem reads_block : Reads block (.ofTree BlockTree.lexemes BlockTree.block) := by
  have hstatements := (reads_closed .semicolon reads_statement).trees
    fun x => List.append_ne_nil_of_left_ne_nil (StatementTree.lexemes_ne_nil _) _
  refine (((((((reads_keyword .entry).optionalTree).before (reads_keyword .block)).map _).seq reads_identifier).seq
    (reads_between .openBrace .closeBrace hstatements)).label _).mono ?_
  rintro w a ⟨_, _, _, _, rfl, ⟨_, _, _, _, rfl, ⟨_, ⟨_, _, _, rfl, ⟨e, rfl, rfl⟩, k, rfl, -⟩, rfl⟩,
    ⟨n, rfl, rfl⟩, rfl⟩, ⟨l, r, _, rfl, ss, rfl, rfl⟩, rfl⟩
  refine ⟨⟨e, k, n, l, ss, r⟩, by simp [BlockTree.lexemes, optionalLeaf], ?_⟩
  rcases e with _ | e <;> rfl

theorem reads_declaration : Reads declaration (.ofTree DeclarationTree.lexemes DeclarationTree.declaration) := by
  unfold declaration
  simp only [choice_cons, choice_nil, orElse_fail]
  refine (((reads_actor.map _).orElse ((reads_message.map _).orElse
    ((reads_function.map _).orElse (reads_block.map _)))).label _).mono ?_
  rintro w a (⟨_, ⟨t, rfl, rfl⟩, rfl⟩ | ⟨_, ⟨t, rfl, rfl⟩, rfl⟩ | ⟨_, ⟨t, rfl, rfl⟩, rfl⟩ | ⟨_, ⟨t, rfl, rfl⟩, rfl⟩)
  · exact ⟨.actor t, rfl, rfl⟩
  · exact ⟨.message t, rfl, rfl⟩
  · exact ⟨.function t, rfl, rfl⟩
  · exact ⟨.block t, rfl, rfl⟩

/-! ## Transactions -/

theorem reads_header :
    Reads header (.ofTree HeaderTree.lexemes fun t =>
      ((t.name.value, t.name.lexeme.span), t.description.map (·.value))) := by
  refine (((((reads_keyword .transaction).behind reads_identifier).map _).seq reads_string.optionalTree).before
    (reads_symbol .openBrace)).label _ |>.mono ?_
  rintro w a ⟨_, _, _, rfl, ⟨_, _, _, _, rfl, ⟨_, ⟨_, _, _, rfl, ⟨k, rfl, -⟩, n, rfl, rfl⟩, rfl⟩, ⟨d, rfl, rfl⟩, rfl⟩, l, rfl, -⟩
  exact ⟨⟨k, n, d, l⟩, by simp [HeaderTree.lexemes, optionalLeaf], rfl⟩

theorem assemble_declarations (head : (String × Span) × Option String) (ts : List DeclarationTree) :
    assemble head (ts.map DeclarationTree.declaration) =
      { name := head.1.1, description := head.2, span := head.1.2,
        actors := ts.filterMap DeclarationTree.actor?, messages := ts.filterMap DeclarationTree.message?,
        blocks := ts.filterMap DeclarationTree.block?, functions := ts.filterMap DeclarationTree.function? } := by
  unfold assemble
  simp only [List.filterMap_map]
  congr 1 <;> (congr 1; funext t; cases t <;> rfl)

theorem reads_transaction : Reads transaction (.ofTree TransactionTree.lexemes TransactionTree.transaction) := by
  refine (((reads_header.map _).seq (reads_declaration.trees DeclarationTree.lexemes_ne_nil)).before
    (reads_symbol .closeBrace)).mono ?_
  rintro w a ⟨_, _, _, rfl, ⟨_, _, _, _, rfl, ⟨_, ⟨h, rfl, rfl⟩, rfl⟩, ⟨ds, rfl, rfl⟩, rfl⟩, r, rfl, -⟩
  refine ⟨⟨h, ds, r⟩, by simp [TransactionTree.lexemes], ?_⟩
  rw [assemble_declarations]
  rfl

theorem reads_transactions :
    Reads (many1 transaction) (.ofTree SchemaTree.lexemes fun t => t.transactions.map TransactionTree.transaction) := by
  refine ((reads_transaction.map _).seq (reads_transaction.trees TransactionTree.lexemes_ne_nil)).mono ?_
  rintro w a ⟨_, _, _, _, rfl, ⟨_, ⟨t, rfl, rfl⟩, rfl⟩, ⟨ts, rfl, rfl⟩, rfl⟩
  exact ⟨⟨t, ts⟩, rfl, rfl⟩

theorem reads_schemas : Reads (Schema.mk <$> many1 transaction) (.ofTree SchemaTree.lexemes SchemaTree.schema) := by
  refine (reads_transactions.map _).mono ?_
  rintro w a ⟨_, ⟨t, rfl, rfl⟩, rfl⟩
  exact ⟨t, rfl, rfl⟩

end Grammar

end Parley
