/-
Every sentence of the grammar is read by the parser of its production, whatever follows it, as long
as what follows cannot go on the sentence: no bracket after a type, no operator that binds as
tightly after an expression, no condition or separator after a statement. Greedy reading therefore
loses nothing.
-/
import Parley.Proofs.Grammar.Sound

namespace Parley

/-! ## What comes next -/

def upcoming (u : List Lexeme) : Option Token := u.head?.map (·.token)

@[simp] theorem upcoming_cons (l : Lexeme) (u : List Lexeme) : upcoming (l :: u) = some l.token := rfl

/-- How tightly a token joins the operand before it to what follows: a dot most, a disjunction
least, and other tokens not at all. -/
def Token.tightness : Token → Nat
  | .symbol .dot => 4
  | .symbol .and => 2
  | .symbol .or => 1
  | .symbol mark => if (Grammar.comparison? mark).isSome then 3 else 0
  | _ => 0

def tightness (u : List Lexeme) : Nat := (upcoming u).elim 0 Token.tightness

@[simp] theorem tightness_cons (l : Lexeme) (u : List Lexeme) : tightness (l :: u) = l.token.tightness := rfl

namespace Grammar

open Parley.Parser

variable {τ α : Type} {u : List Lexeme}

theorem tightness_of_upcoming {t : Token} (h : upcoming u = some t) : tightness u = t.tightness := by
  simp [tightness, h]

/-! ## Terminals -/

section Terminals

variable {word : Keyword} {mark : Symbol}

@[simp] theorem result_keyword_leaf (k : KeywordLeaf word) (u : List Lexeme) :
    (keyword word (k.lexeme :: u)).result = some ((), u) := by simp [keyword, k.holds]

@[simp] theorem result_symbol_leaf (s : SymbolLeaf mark) (u : List Lexeme) :
    (symbol mark (s.lexeme :: u)).result = some ((), u) := by simp [symbol, s.holds]

@[simp] theorem result_identifier_leaf (n : NameLeaf) (u : List Lexeme) :
    (identifier (n.lexeme :: u)).result = some ((n.value, n.lexeme.span), u) := by simp [identifier, n.holds]

@[simp] theorem result_string_leaf (s : StringLeaf) (u : List Lexeme) :
    (string (s.lexeme :: u)).result = some (s.value, u) := by simp [string, s.holds]

@[simp] theorem result_comparisonOp_leaf (c : ComparisonLeaf) (u : List Lexeme) :
    (comparisonOp (c.lexeme :: u)).result = some (c.value.operator, u) := by
  unfold comparisonOp
  rw [result_satisfy_cons, c.holds]
  cases c.value <;> rfl

theorem result_token_none {t : Token} (h : upcoming u ≠ some t) : (token t u).result = none := by
  rcases u with _ | ⟨l, u⟩
  · rfl
  · rw [result_token_cons, if_neg fun hl => h (congrArg some hl)]

theorem result_keyword_none (h : upcoming u ≠ some (.keyword word)) : (keyword word u).result = none :=
  result_token_none h

theorem result_symbol_none (h : upcoming u ≠ some (.symbol mark)) : (symbol mark u).result = none :=
  result_token_none h

theorem result_identifier_none (h : ∀ v, upcoming u ≠ some (.name v)) : (identifier u).result = none := by
  rcases u with _ | ⟨l, u⟩
  · rfl
  · unfold identifier
    rw [result_label, result_satisfy_cons, Option.map_eq_none_iff]
    split
    · exact absurd (congrArg some ‹_›) (h _)
    · rfl

theorem result_string_none (h : ∀ v, upcoming u ≠ some (.string v)) : (string u).result = none := by
  rcases u with _ | ⟨l, u⟩
  · rfl
  · unfold string
    rw [result_label, result_satisfy_cons, Option.map_eq_none_iff]
    split
    · exact absurd (congrArg some ‹_›) (h _)
    · rfl

/-- Tokens that join less tightly are no comparison operators. -/
theorem result_comparisonOp_none (h : tightness u < 3) : (comparisonOp u).result = none := by
  rcases u with _ | ⟨⟨t, text, span⟩, u⟩
  · rfl
  · unfold comparisonOp
    rw [result_satisfy_cons, Option.map_eq_none_iff]
    cases t with
    | symbol mark => cases mark <;> first | rfl | exact absurd h (Nat.lt_irrefl 3)
    | _ => rfl

theorem upcoming_ne_of_tightness {n : Nat} {t : Token} (h : tightness u < n) (ht : n ≤ t.tightness) :
    upcoming u ≠ some t := by
  intro hu
  rw [tightness_of_upcoming hu] at h
  omega

end Terminals

/-- A parser reads nothing where none of its sentences starts. -/
theorem result_none_of_ne {p : Parser α} {lexemes : τ → List Lexeme} {value : τ → α}
    (hp : Reads p (.ofTree lexemes value)) (h : ∀ t vs, upcoming (lexemes t ++ vs) ≠ upcoming u) :
    (p u).result = none := by
  rcases hr : (p u).result with _ | ⟨a, rest⟩
  · rfl
  · obtain ⟨_, rfl, t, rfl, -⟩ := hp.sound hr
    exact absurd rfl (h t rest)

/-! ## Optional and repeated sentences -/

section Lists

variable {p : Parser α} {f : τ → List Lexeme} {v : τ → α}

theorem result_optionalTree (o : Option τ) (hsome : ∀ t, (p (f t ++ u)).result = some (v t, u))
    (hnone : (p u).result = none) :
    (optional p (optionalLexemes f o ++ u)).result = some (o.map v, u) := by
  cases o with
  | none => simp [optionalLexemes, hnone]
  | some t => simp [optionalLexemes, hsome t]

theorem result_optionalLeaf {β : Type} {kind : β → Token} {v : Leaf kind → α} (o : Option (Leaf kind))
    (hsome : ∀ l : Leaf kind, (p (l.lexeme :: u)).result = some (v l, u)) (hnone : (p u).result = none) :
    (optional p (optionalLeaf o ++ u)).result = some (o.map v, u) := result_optionalTree o hsome hnone

theorem result_many_of_some {ts rest : List Lexeme} {a : α} (h : (p ts).result = some (a, rest))
    (hlt : rest.length < ts.length) : (many p ts).result = (many p rest).result.map fun x => (a :: x.1, x.2) := by
  rw [many_of_some h hlt]; rfl

/-- A list of sentences is read one after the other, if each may be followed by the next and by
what comes after all. -/
theorem result_many_trees (Fine : List Lexeme → Prop) (hne : ∀ t, f t ≠ [])
    (hitem : ∀ t u, Fine u → (p (f t ++ u)).result = some (v t, u))
    (hfine : ∀ t u, Fine (f t ++ u)) (hus : Fine u) (hstop : (p u).result = none) (ts : List τ) :
    (many p (ts.flatMap f ++ u)).result = some (ts.map v, u) := by
  induction ts with
  | nil => rw [List.flatMap_nil, List.nil_append, many_of_none hstop]; rfl
  | cons t ts ih =>
    -- what follows the first sentence is the next one, or `u` after the last
    have hnext : Fine (ts.flatMap f ++ u) := by
      cases ts with
      | nil => exact hus
      | cons t' ts => rw [List.flatMap_cons, List.append_assoc]; exact hfine t' _
    have hlt : (ts.flatMap f ++ u).length < (f t ++ (ts.flatMap f ++ u)).length := by
      have := List.length_pos_of_ne_nil (hne t)
      simp only [List.length_append]; omega
    rw [List.flatMap_cons, List.append_assoc, result_many_of_some (hitem t _ hnext) hlt, ih]
    rfl

theorem result_closed {mark : Symbol} (x : τ × Option (SymbolLeaf mark))
    (hmark : upcoming u ≠ some (.symbol mark))
    (hitem : ∀ vs, vs = u ∨ upcoming vs = some (.symbol mark) →
      (p (f x.1 ++ vs)).result = some (v x.1, vs)) :
    ((p <* optional (symbol mark)) (closedLexemes f x ++ u)).result = some (v x.1, u) := by
  rcases x with ⟨t, _ | m⟩
  · have ht := hitem u (.inl rfl)
    simp [closedLexemes, optionalLeaf, optionalLexemes, ht, result_symbol_none hmark]
  · have ht := hitem (m.lexeme :: u) (.inr (congrArg some m.holds))
    simp [closedLexemes, optionalLeaf, optionalLexemes, ht]

/-- Further items, each after a mark. -/
theorem result_many_pairs {mark : Symbol} (Fine : List Lexeme → Prop)
    (hitem : ∀ t u, Fine u → (p (f t ++ u)).result = some (v t, u))
    (hfine : ∀ u, upcoming u = some (.symbol mark) → Fine u) (hus : Fine u)
    (hmark : upcoming u ≠ some (.symbol mark)) (xs : List (SymbolLeaf mark × τ)) :
    (many (symbol mark *> p) ((xs.flatMap fun x => x.1.lexeme :: f x.2) ++ u)).result =
      some (xs.map fun x => v x.2, u) := by
  refine result_many_trees (v := fun x : SymbolLeaf mark × τ => v x.2) Fine
    (fun _ => List.cons_ne_nil _ _) ?_ ?_ hus ?_ xs
  · intro x vs hvs
    simp [hitem x.2 vs hvs]
  · intro x vs
    exact hfine _ (congrArg some x.1.holds)
  · simp [result_symbol_none hmark]

theorem result_separated (Fine : List Lexeme → Prop)
    (hitem : ∀ t u, Fine u → (p (f t ++ u)).result = some (v t, u))
    (hfine : ∀ u, upcoming u = some (.symbol .comma) → Fine u) (hus : Fine u)
    (hmark : upcoming u ≠ some (.symbol .comma)) (s : Separated τ) :
    (sepBy1 p (symbol .comma) (s.lexemes f ++ u)).result = some (s.values v, u) := by
  have hmany := result_many_pairs Fine hitem hfine hus hmark s.more
  have hfirst : Fine ((s.more.flatMap fun x => x.1.lexeme :: f x.2) ++ u) := by
    rcases s.more with _ | ⟨x, xs⟩
    · exact hus
    · exact hfine _ (congrArg some x.1.holds)
  simp [sepBy1, Separated.lexemes, Separated.values, hitem s.first _ hfirst, hmany]

end Lists

/-! ## Types -/

mutual

theorem complete_typeFrom : ∀ (t : TypeTree) (u : List Lexeme), upcoming u ≠ some (.symbol .less) →
    (recursive typeBody (t.lexemes ++ u)).result = some (t.type, u)
  | .plain name, u, h => by
    have hspan := spanRead_append [name.lexeme] u
    rw [spanRead_nil (List.cons_ne_nil _ _)] at hspan
    rw [productive_typeBody.recursive_eq]
    simp [typeBody, TypeTree.lexemes, TypeTree.type, angled, result_symbol_none h]
    simpa [Span.upTo, Span.stop] using hspan
  | .applied name left first more right, u, _ => by
    -- an argument is followed by a comma or by the closing bracket, and neither opens further arguments
    have hright : upcoming (right.lexeme :: u) = some (.symbol .greater) := congrArg some right.holds
    have hfirst := complete_typeFrom first (more.lexemes ++ right.lexeme :: u) (by
      cases more <;> simp [TypeTrees.lexemes, Leaf.holds])
    have hmore := complete_types more (right.lexeme :: u) (by simp [hright]) (by simp [hright])
    have hspan := spanRead_append (name.lexeme :: left.lexeme :: (first.lexemes ++ (more.lexemes ++ [right.lexeme]))) u
    rw [spanRead_nil (List.cons_ne_nil _ _)] at hspan
    rw [productive_typeBody.recursive_eq]
    simp [typeBody, TypeTree.lexemes, TypeTree.type, angled, sepBy1, hfirst, hmore]
    simpa using hspan

theorem complete_types : ∀ (ts : TypeTrees) (u : List Lexeme), upcoming u ≠ some (.symbol .less) →
    upcoming u ≠ some (.symbol .comma) →
    (many (symbol .comma *> recursive typeBody) (ts.lexemes ++ u)).result = some (ts.types, u)
  | .none, u, _, h => by
    rw [TypeTrees.lexemes, List.nil_append, many_of_none (by simp [result_symbol_none h])]
    rfl
  | .more comma type rest, u, h, h' => by
    have htype := complete_typeFrom type (rest.lexemes ++ u) (by
      cases rest with
      | none => exact h
      | more comma' _ _ => simp [TypeTrees.lexemes, comma'.holds])
    have hrest := complete_types rest u h h'
    have hfirst : ((symbol .comma *> recursive typeBody) (comma.lexeme :: (type.lexemes ++ (rest.lexemes ++ u)))).result =
        some (type.type, rest.lexemes ++ u) := by simp [htype]
    rw [TypeTrees.lexemes, List.cons_append, List.append_assoc,
      result_many_of_some hfirst (by simp only [List.length_cons, List.length_append]; omega), hrest]
    rfl

end

theorem complete_type (t : TypeTree) (h : upcoming u ≠ some (.symbol .less)) :
    (type (t.lexemes ++ u)).result = some (t.type, u) := complete_typeFrom t u h

/-! ## Expressions -/

/-- An operand starts with none of the symbols but an opening parenthesis. -/
theorem upcoming_operand (t : OperandTree) (u : List Lexeme) {mark : Symbol} (h : mark ≠ .openParen) :
    upcoming (t.lexemes ++ u) ≠ some (.symbol mark) := by
  cases t <;> simp [OperandTree.lexemes, Leaf.holds]
  exact fun hm => h hm.symm

theorem upcoming_cmp (t : CmpTree) (u : List Lexeme) {mark : Symbol} (h : mark ≠ .openParen) :
    upcoming (t.lexemes ++ u) ≠ some (.symbol mark) := by
  cases t with
  | operand only => exact upcoming_operand only u h
  | compared left op right => rw [CmpTree.lexemes, List.append_assoc]; exact upcoming_operand left _ h

theorem upcoming_unary (t : UnaryTree) (u : List Lexeme) {mark : Symbol} (h : mark ≠ .openParen) (h' : mark ≠ .not) :
    upcoming (t.lexemes ++ u) ≠ some (.symbol mark) := by
  cases t with
  | not m inner =>
    rw [UnaryTree.lexemes, List.cons_append, upcoming_cons, m.holds]
    simpa using Ne.symm h'
  | cmp inner => exact upcoming_cmp inner u h

theorem upcoming_expression (t : OrTree) (u : List Lexeme) {mark : Symbol} (h : mark ≠ .openParen) (h' : mark ≠ .not) :
    upcoming (t.lexemes ++ u) ≠ some (.symbol mark) := by
  rcases t with ⟨⟨head, tail⟩, more⟩
  rw [OrTree.lexemes, AndTree.lexemes, List.append_assoc, List.append_assoc]
  exact upcoming_unary head _ h h'

section Expressions

variable (expr : Parser Expr)

theorem result_negation_not (m : SymbolLeaf .not) (u : List Lexeme) :
    (negation expr (m.lexeme :: u)).result = (negation expr u).result.map fun x => (.not x.1, x.2) := by
  have hmany := result_many_of_some (result_symbol_leaf m u) (by simp)
  unfold negation
  simp only [result_seq, result_map, hmany]
  cases (many (symbol .not) u).result with
  | none => rfl
  | some x => cases h : (comparison expr x.2).result <;> simp [h]

theorem result_negation_cmp (h : upcoming u ≠ some (.symbol .not)) :
    (negation expr u).result = (comparison expr u).result := by
  unfold negation
  simp only [result_seq, result_map, many_of_none (result_symbol_none h)]
  cases h : (comparison expr u).result <;> simp [h]

end Expressions

/-- What follows the items of a conjunction or a disjunction joins them to the next. -/
theorem tightness_andTail (t : AndTail) (h : tightness u < 2) : tightness (t.lexemes ++ u) < 3 := by
  cases t with
  | none => exact Nat.lt_succ_of_lt h
  | more mark item rest => simp [AndTail.lexemes, mark.holds, Token.tightness]

theorem tightness_orTail (t : OrTail) (h : tightness u < 1) : tightness (t.lexemes ++ u) < 2 := by
  cases t with
  | none => exact Nat.lt_succ_of_lt h
  | more mark item rest => simp [OrTail.lexemes, mark.holds, Token.tightness]

mutual

theorem complete_operand : ∀ (t : OperandTree) (u : List Lexeme), tightness u < 4 →
    (operand (recursive disjunction) (t.lexemes ++ u)).result = some (t.expr, u)
  | .path head tail, u, h => by
    have htail := result_many_pairs (p := Prod.fst <$> identifier) (f := fun n : NameLeaf => [n.lexeme])
      (v := (·.value)) (fun _ => True) (by simp) (by simp) trivial
      (upcoming_ne_of_tightness h (Nat.le_refl 4) : upcoming u ≠ some (.symbol .dot)) tail
    simp only [List.flatMap_def] at htail
    simp [operand, literal_eq, literal?, path, sepBy1, OperandTree.lexemes, OperandTree.expr, head.holds, List.flatMap_def, htail]
  | .integer leaf, u, _ => by simp [operand, literal_eq, literal?, OperandTree.lexemes, OperandTree.expr, leaf.holds]
  | .string leaf, u, _ => by simp [operand, literal_eq, literal?, OperandTree.lexemes, OperandTree.expr, leaf.holds]
  | .yes leaf, u, _ => by simp [operand, literal_eq, literal?, truth?, OperandTree.lexemes, OperandTree.expr, leaf.holds]
  | .no leaf, u, _ => by simp [operand, literal_eq, literal?, truth?, OperandTree.lexemes, OperandTree.expr, leaf.holds]
  | .parenthesized left inner right, u, _ => by
    have hinner := complete_expressionFrom inner (right.lexeme :: u) (by simp [right.holds, Token.tightness, comparison?])
    -- literals and paths are tried first and refuse the parenthesis
    have hpath : (path (left.lexeme :: (inner.lexemes ++ right.lexeme :: u))).result = none := by
      simp [path, sepBy1, result_identifier_none, left.holds]
    simp [operand, literal_eq, literal?, OperandTree.lexemes, OperandTree.expr, left.holds, hpath, Grammar.parenthesized, hinner]

theorem complete_comparison : ∀ (t : CmpTree) (u : List Lexeme), tightness u < 3 →
    (comparison (recursive disjunction) (t.lexemes ++ u)).result = some (t.expr, u)
  | .operand only, u, h => by
    have honly := complete_operand only u (by omega)
    simp [comparison, CmpTree.lexemes, CmpTree.expr, honly, result_comparisonOp_none h]
  | .compared left op right, u, h => by
    have hleft := complete_operand left (op.lexeme :: (right.lexemes ++ u)) (by
      rw [tightness_cons, op.holds]; cases op.value <;> decide)
    have hright := complete_operand right u (by omega)
    simp [comparison, CmpTree.lexemes, CmpTree.expr, hleft, hright]

theorem complete_negation : ∀ (t : UnaryTree) (u : List Lexeme), tightness u < 3 →
    (negation (recursive disjunction) (t.lexemes ++ u)).result = some (t.expr, u)
  | .not mark inner, u, h => by
    have hinner := complete_negation inner u h
    simp [UnaryTree.lexemes, UnaryTree.expr, result_negation_not, hinner]
  | .cmp inner, u, h => by
    have hinner := complete_comparison inner u h
    rw [UnaryTree.lexemes, UnaryTree.expr, result_negation_cmp _ (upcoming_cmp inner u (by decide)), hinner]

theorem complete_conjunction : ∀ (t : AndTree) (u : List Lexeme), tightness u < 2 →
    (conjunction (recursive disjunction) (t.lexemes ++ u)).result = some (t.expr, u)
  | .mk head tail, u, h => by
    have hhead := complete_negation head (tail.lexemes ++ u) (tightness_andTail tail h)
    obtain ⟨es, htail, honto⟩ := complete_andTail tail u h
    simp [conjunction, leftGrouped, AndTree.lexemes, AndTree.expr, hhead, htail, honto]

theorem complete_andTail : ∀ (t : AndTail) (u : List Lexeme), tightness u < 2 →
    ∃ es, (many (symbol .and *> negation (recursive disjunction)) (t.lexemes ++ u)).result = some (es, u) ∧
      ∀ e, t.onto e = es.foldl (.binary .and) e
  | .none, u, h => by
    have hstop := result_symbol_none (upcoming_ne_of_tightness h (Nat.le_refl 2) : upcoming u ≠ some (.symbol .and))
    refine ⟨[], ?_, fun _ => rfl⟩
    rw [AndTail.lexemes, List.nil_append, many_of_none (by simp [hstop])]
  | .more mark item rest, u, h => by
    have hitem := complete_negation item (rest.lexemes ++ u) (tightness_andTail rest h)
    obtain ⟨es, hrest, honto⟩ := complete_andTail rest u h
    have hfirst : ((symbol .and *> negation (recursive disjunction))
        (mark.lexeme :: (item.lexemes ++ (rest.lexemes ++ u)))).result = some (item.expr, rest.lexemes ++ u) := by
      simp [hitem]
    refine ⟨item.expr :: es, ?_, fun e => by rw [AndTail.onto, honto, List.foldl_cons]⟩
    rw [AndTail.lexemes, List.cons_append, List.append_assoc,
      result_many_of_some hfirst (by simp only [List.length_cons, List.length_append]; omega), hrest]
    rfl

theorem complete_expressionFrom : ∀ (t : OrTree) (u : List Lexeme), tightness u < 1 →
    (recursive disjunction (t.lexemes ++ u)).result = some (t.expr, u)
  | .mk head tail, u, h => by
    have hhead := complete_conjunction head (tail.lexemes ++ u) (tightness_orTail tail h)
    obtain ⟨es, htail, honto⟩ := complete_orTail tail u h
    rw [productive_disjunction.recursive_eq]
    simp [disjunction, leftGrouped, OrTree.lexemes, OrTree.expr, hhead, htail, honto]

theorem complete_orTail : ∀ (t : OrTail) (u : List Lexeme), tightness u < 1 →
    ∃ es, (many (symbol .or *> conjunction (recursive disjunction)) (t.lexemes ++ u)).result = some (es, u) ∧
      ∀ e, t.onto e = es.foldl (.binary .or) e
  | .none, u, h => by
    have hstop := result_symbol_none (upcoming_ne_of_tightness h (Nat.le_refl 1) : upcoming u ≠ some (.symbol .or))
    refine ⟨[], ?_, fun _ => rfl⟩
    rw [OrTail.lexemes, List.nil_append, many_of_none (by simp [hstop])]
  | .more mark item rest, u, h => by
    have hitem := complete_conjunction item (rest.lexemes ++ u) (tightness_orTail rest h)
    obtain ⟨es, hrest, honto⟩ := complete_orTail rest u h
    have hfirst : ((symbol .or *> conjunction (recursive disjunction))
        (mark.lexeme :: (item.lexemes ++ (rest.lexemes ++ u)))).result = some (item.expr, rest.lexemes ++ u) := by
      simp [hitem]
    refine ⟨item.expr :: es, ?_, fun e => by rw [OrTail.onto, honto, List.foldl_cons]⟩
    rw [OrTail.lexemes, List.cons_append, List.append_assoc,
      result_many_of_some hfirst (by simp only [List.length_cons, List.length_append]; omega), hrest]
    rfl

end

theorem complete_expression (t : OrTree) (h : tightness u < 1) :
    (expression (t.lexemes ++ u)).result = some (t.expr, u) := complete_expressionFrom t u h

/-! ## Statements -/

theorem complete_action (t : ActionTree) (u : List Lexeme) : (action (t.lexemes ++ u)).result = some (t.action, u) := by
  cases t with
  | send word target => simp [action, reference, ActionTree.lexemes, ActionTree.action, NameLeaf.reference]
  | goto word target =>
    have hsend : (keyword .send (word.lexeme :: target.lexeme :: u)).result = none :=
      result_keyword_none (by simp [word.holds])
    have hcall : (keyword .call (word.lexeme :: target.lexeme :: u)).result = none :=
      result_keyword_none (by simp [word.holds])
    simp [action, reference, ActionTree.lexemes, ActionTree.action, NameLeaf.reference, hsend, hcall]
  | call word target left args right =>
    have hsend : ∀ vs, (keyword .send (word.lexeme :: vs)).result = none :=
      fun vs => result_keyword_none (by simp [word.holds])
    have hargs : (sepBy expression (symbol .comma)
        (optionalLexemes (Separated.lexemes OrTree.lexemes) args ++ right.lexeme :: u)).result =
          some (args.elim [] (Separated.values OrTree.expr), right.lexeme :: u) := by
      have hright : tightness (right.lexeme :: u) < 1 := by
        rw [tightness_cons, right.holds]; decide
      cases args with
      | none =>
        have hnone : (expression (right.lexeme :: u)).result = none :=
          result_none_of_ne reads_expression fun t vs h =>
            upcoming_expression t vs (by decide) (by decide) (h.trans (congrArg some right.holds))
        simp [sepBy, sepBy1, optionalLexemes, hnone]
      | some s =>
        have hs := result_separated (fun u => tightness u < 1) (fun t u h => complete_expression t h)
          (fun u h => by rw [tightness_of_upcoming h]; decide) hright (by simp [right.holds]) s
        simp [sepBy, optionalLexemes, hs]
    simp [action, reference, ActionTree.lexemes, ActionTree.action, NameLeaf.reference, hsend, Grammar.parenthesized,
      hargs]

/-- What may follow a statement: no operator and no condition. -/
def endsStatement (u : List Lexeme) : Prop := tightness u < 1 ∧ upcoming u ≠ some (.keyword .when)

theorem complete_guard (t : GuardTree) (h : tightness u < 1) :
    ((keyword .when *> expression) (t.lexemes ++ u)).result = some (t.condition.expr, u) := by
  simp [GuardTree.lexemes, complete_expression t.condition h]

theorem complete_statement (t : StatementTree) (h : endsStatement u) :
    (statement (t.lexemes ++ u)).result = some (t.statement, u) := by
  have haction := complete_action t.action (optionalLexemes GuardTree.lexemes t.guard ++ u)
  have hguard := result_optionalTree (u := u) t.guard (fun g => complete_guard g h.1)
    (by simp [result_keyword_none h.2])
  have hspan := spanRead_append t.lexemes u
  rw [spanRead_nil t.lexemes_ne_nil] at hspan
  have hread : ((Prod.mk <$> action <*> optional (keyword .when *> expression)) (t.lexemes ++ u)).result =
      some ((t.action.action, t.guard.map fun g => g.condition.expr), u) := by
    simp only [StatementTree.lexemes, List.append_assoc, result_seq, result_map, haction, hguard, Option.map_some,
      Option.bind_some]
  unfold statement
  simp only [result_label, result_map, result_located, hread, hspan, Option.map_some]
  simp only [StatementTree.statement, List.head?_eq_some_head t.lexemes_ne_nil,
    List.getLast?_eq_some_getLast t.lexemes_ne_nil, Option.elim_some]

theorem upcoming_statement (t : StatementTree) (u : List Lexeme) :
    ∃ word, (word = .send ∨ word = .call ∨ word = .goto) ∧ upcoming (t.lexemes ++ u) = some (.keyword word) := by
  rcases t with ⟨⟨word, _⟩ | ⟨word, _, _, _, _⟩ | ⟨word, _⟩, guard⟩
  · exact ⟨.send, by simp, congrArg some word.holds⟩
  · exact ⟨.call, by simp, congrArg some word.holds⟩
  · exact ⟨.goto, by simp, congrArg some word.holds⟩

/-! ## Declarations -/

section Braces

variable {p : Parser α} {vs : List Lexeme} {a : α}

theorem result_braced (l : SymbolLeaf .openBrace) (r : SymbolLeaf .closeBrace)
    (h : (p (vs ++ r.lexeme :: u)).result = some (a, r.lexeme :: u)) :
    (braced p (l.lexeme :: (vs ++ r.lexeme :: u))).result = some (a, u) := by simp [braced, h]

theorem result_parenthesized (l : SymbolLeaf .openParen) (r : SymbolLeaf .closeParen)
    (h : (p (vs ++ r.lexeme :: u)).result = some (a, r.lexeme :: u)) :
    (parenthesized p (l.lexeme :: (vs ++ r.lexeme :: u))).result = some (a, u) := by simp [parenthesized, h]

end Braces

theorem complete_role (t : RoleTree) (h : upcoming u ≠ some (.symbol .comma)) :
    (role (t.lexemes ++ u)).result = some (t.value.text, u) := by
  have hcomma := result_optionalLeaf t.comma (fun c => result_symbol_leaf c u) (result_symbol_none h)
  have hvalue : ∀ vs, (orElse string (Prod.fst <$> identifier) (t.value.lexeme :: vs)).result = some (t.value.text, vs) := by
    intro vs
    rcases t.value with s | n
    · simp [RoleValue.lexeme, RoleValue.text]
    · have hs : (string (n.lexeme :: vs)).result = none := result_string_none (by simp [n.holds])
      simp [RoleValue.lexeme, RoleValue.text, hs]
  simp [role, RoleTree.lexemes, hvalue, hcomma, -result_orElse, -result_optional]

theorem complete_actor (t : ActorTree) (u : List Lexeme) : (actor (t.lexemes ++ u)).result = some (t.actor, u) := by
  have hright : upcoming (t.right.lexeme :: u) = some (.symbol .closeBrace) := congrArg some t.right.holds
  have hrole := result_optionalTree t.role (fun r => complete_role (u := t.right.lexeme :: u) r (by simp [hright]))
    (result_none_of_ne reads_role fun r vs => by simp [RoleTree.lexemes, r.word.holds, t.right.holds])
  simp [actor, ActorTree.lexemes, ActorTree.actor, result_braced t.left t.right hrole]

theorem complete_field (t : BindingTree) (h : upcoming u ≠ some (.symbol .less)) :
    (field (t.lexemes ++ u)).result = some (t.field, u) := by
  simp [field, BindingTree.lexemes, BindingTree.field, complete_type t.type h]

theorem complete_param (t : BindingTree) (h : upcoming u ≠ some (.symbol .less)) :
    (param (t.lexemes ++ u)).result = some (t.param, u) := by
  simp [param, BindingTree.lexemes, BindingTree.param, complete_type t.type h]

/-- What may follow a field and its comma: no arguments of its type and no further comma. -/
def endsField (u : List Lexeme) : Prop := upcoming u ≠ some (.symbol .less) ∧ upcoming u ≠ some (.symbol .comma)

theorem complete_closedField (x : BindingTree × Option (SymbolLeaf .comma)) (u : List Lexeme) (h : endsField u) :
    ((field <* optional (symbol .comma)) (closedLexemes BindingTree.lexemes x ++ u)).result =
      some (x.1.field, u) := by
  refine result_closed x h.2 fun vs hvs => complete_field x.1 ?_
  rcases hvs with rfl | hvs
  · exact h.1
  · simp [hvs]

theorem endsField_field (x : BindingTree × Option (SymbolLeaf .comma)) (u : List Lexeme) :
    endsField (closedLexemes BindingTree.lexemes x ++ u) := by
  simp [endsField, closedLexemes, BindingTree.lexemes, x.1.name.holds]

theorem complete_message (t : MessageTree) (u : List Lexeme) :
    (message (t.lexemes ++ u)).result = some (t.message, u) := by
  have hfields := result_many_trees (u := t.right.lexeme :: u) (f := closedLexemes BindingTree.lexemes) endsField
    (fun x => List.append_ne_nil_of_left_ne_nil (List.cons_ne_nil _ _) _) complete_closedField endsField_field
    (by simp [endsField, t.right.holds]) (by simp [field, result_identifier_none, t.right.holds]) t.fields
  simp [message, reference, MessageTree.lexemes, MessageTree.message, NameLeaf.reference,
    result_braced t.left t.right hfields]

/-- Parameters are read as far as there are any: a comma is taken only with a parameter after it. -/
theorem complete_paramList (s : Separated BindingTree) (hless : upcoming u ≠ some (.symbol .less))
    (hstop : ((symbol .comma *> param) u).result = none) :
    (sepBy1 param (symbol .comma) (s.lexemes BindingTree.lexemes ++ u)).result =
      some (s.values BindingTree.param, u) := by
  have hmore := result_many_trees (u := u) (p := symbol .comma *> param)
    (f := fun x : SymbolLeaf .comma × BindingTree => x.1.lexeme :: x.2.lexemes) (v := fun x => x.2.param)
    (fun u => upcoming u ≠ some (.symbol .less)) (fun _ => List.cons_ne_nil _ _)
    (fun x u h => by simp [complete_param x.2 h]) (fun x u => by simp [x.1.holds]) hless hstop s.more
  have hfirst : upcoming ((s.more.flatMap fun x => x.1.lexeme :: x.2.lexemes) ++ u) ≠ some (.symbol .less) := by
    rcases s.more with _ | ⟨x, xs⟩
    · exact hless
    · simp [x.1.holds]
  simp [sepBy1, Separated.lexemes, Separated.values, complete_param s.first hfirst, hmore]

/-- An optional comma is not taken for the start of a parameter where none follows. -/
theorem stops_paramList (c : Option (SymbolLeaf .comma)) (hname : ∀ v, upcoming u ≠ some (.name v))
    (hcomma : upcoming u ≠ some (.symbol .comma)) : ((symbol .comma *> param) (optionalLeaf c ++ u)).result = none := by
  cases c with
  | none => simp [optionalLeaf, optionalLexemes, result_symbol_none hcomma]
  | some c => simp [optionalLeaf, optionalLexemes, param, result_identifier_none hname]

theorem complete_params (t : Option ParamsTree) (r : SymbolLeaf .closeParen) (u : List Lexeme) :
    (sepEndBy param (symbol .comma) (optionalLexemes ParamsTree.lexemes t ++ r.lexeme :: u)).result =
      some (t.elim [] fun ps => ps.params.values BindingTree.param, r.lexeme :: u) := by
  cases t with
  | none =>
    have hnone : (param (r.lexeme :: u)).result = none := by simp [param, result_identifier_none, r.holds]
    simp [sepEndBy, sepBy1, optionalLexemes, hnone]
  | some ps =>
    -- the list leaves the trailing comma, since no parameter starts behind it
    have hparams := complete_paramList ps.params (u := optionalLeaf ps.comma ++ r.lexeme :: u)
      (by cases ps.comma <;> simp [optionalLeaf, optionalLexemes, Leaf.holds])
      (stops_paramList ps.comma (by simp [r.holds]) (by simp [r.holds]))
    have hcomma := result_optionalLeaf (u := r.lexeme :: u) ps.comma (fun c => result_symbol_leaf c _)
      (by simp [symbol, r.holds])
    simp only [sepEndBy, optionalLexemes, ParamsTree.lexemes, List.append_assoc, result_orElse, result_seqLeft, hparams,
      Option.bind_some, hcomma]
    rfl

theorem complete_returns (t : Option ReturnsTree) (l : SymbolLeaf .openBrace) (u : List Lexeme) :
    (optional (symbol .arrow *> type) (optionalLexemes ReturnsTree.lexemes t ++ l.lexeme :: u)).result =
      some (t.map fun r => r.type.type, l.lexeme :: u) :=
  result_optionalTree t (fun r => by simp [ReturnsTree.lexemes, complete_type r.type, l.holds])
    (by simp [symbol, l.holds])

theorem complete_function (t : FunctionTree) (u : List Lexeme) :
    (function (t.lexemes ++ u)).result = some (t.function, u) := by
  have hparams := fun vs => result_parenthesized t.left t.right (complete_params t.params t.right vs)
  have hreturns := complete_returns t.returns t.openBrace (optionalLeaf t.description ++ t.closeBrace.lexeme :: u)
  have hdescription := result_optionalLeaf (u := t.closeBrace.lexeme :: u) t.description
    (fun s => result_string_leaf s _) (result_string_none (by simp [t.closeBrace.holds]))
  have hbody := result_braced t.openBrace t.closeBrace hdescription
  have hlexemes : t.lexemes ++ u = t.word.lexeme :: t.name.lexeme :: t.left.lexeme ::
      (optionalLexemes ParamsTree.lexemes t.params ++ t.right.lexeme ::
        (optionalLexemes ReturnsTree.lexemes t.returns ++ t.openBrace.lexeme ::
          (optionalLeaf t.description ++ t.closeBrace.lexeme :: u))) := by
    simp [FunctionTree.lexemes]
  rw [hlexemes]
  simp only [function, result_label, result_seq, result_map, result_seqRight, result_keyword_leaf, Option.bind_some,
    result_identifier_leaf, Option.map_some, hparams, hreturns, hbody, FunctionTree.function]
  cases t.returns <;> rfl

/-- What may follow a statement and its semicolon. -/
def endsClosedStatement (u : List Lexeme) : Prop := endsStatement u ∧ upcoming u ≠ some (.symbol .semicolon)

theorem complete_closedStatement (x : StatementTree × Option (SymbolLeaf .semicolon)) (u : List Lexeme)
    (h : endsClosedStatement u) :
    ((statement <* optional (symbol .semicolon)) (closedLexemes StatementTree.lexemes x ++ u)).result =
      some (x.1.statement, u) := by
  refine result_closed x h.2 fun vs hvs => complete_statement x.1 ?_
  rcases hvs with rfl | hvs
  · exact h.1
  · exact ⟨by rw [tightness_of_upcoming hvs]; decide, by simp [hvs]⟩

theorem endsClosedStatement_statement (x : StatementTree × Option (SymbolLeaf .semicolon)) (u : List Lexeme) :
    endsClosedStatement (closedLexemes StatementTree.lexemes x ++ u) := by
  obtain ⟨word, hword, hup⟩ := upcoming_statement x.1 (optionalLeaf x.2 ++ u)
  rw [closedLexemes, List.append_assoc]
  refine ⟨⟨?_, ?_⟩, by simp [hup]⟩
  · rw [tightness_of_upcoming hup]; exact Nat.zero_lt_one
  · rcases hword with rfl | rfl | rfl <;> simp [hup]

theorem complete_block (t : BlockTree) (u : List Lexeme) : (block (t.lexemes ++ u)).result = some (t.block, u) := by
  have hstop : ((statement <* optional (symbol .semicolon)) (t.right.lexeme :: u)).result = none := by
    rw [result_seqLeft, result_none_of_ne reads_statement, Option.bind_none]
    intro x vs h
    obtain ⟨word, -, hup⟩ := upcoming_statement x vs
    simp [hup, t.right.holds] at h
  have hstatements := result_many_trees (u := t.right.lexeme :: u) (f := closedLexemes StatementTree.lexemes)
    endsClosedStatement (fun x => List.append_ne_nil_of_left_ne_nil x.1.lexemes_ne_nil _) complete_closedStatement
    endsClosedStatement_statement
    (by simp [endsClosedStatement, endsStatement, t.right.holds, Token.tightness, comparison?]) hstop t.statements
  have hentry := result_optionalLeaf
    (u := t.word.lexeme :: t.name.lexeme :: t.left.lexeme ::
      (t.statements.flatMap (closedLexemes StatementTree.lexemes) ++ t.right.lexeme :: u)) t.entry
    (fun k => result_keyword_leaf k _) (result_keyword_none (by simp [t.word.holds]))
  have hlexemes : t.lexemes ++ u = optionalLeaf t.entry ++ t.word.lexeme :: t.name.lexeme ::
      t.left.lexeme :: (t.statements.flatMap (closedLexemes StatementTree.lexemes) ++ t.right.lexeme :: u) := by
    simp [BlockTree.lexemes]
  rw [hlexemes]
  simp only [block, result_label, result_seq, result_map, result_seqLeft, hentry, result_keyword_leaf, Option.bind_some,
    result_identifier_leaf, Option.map_some, result_braced t.left t.right hstatements, BlockTree.block,
    Option.isSome_map]

theorem upcoming_declaration (t : DeclarationTree) (u : List Lexeme) :
    ∃ word, word.opensDeclaration ∧ word ≠ .transaction ∧ upcoming (t.lexemes ++ u) = some (.keyword word) := by
  rcases t with t | t | t | ⟨_ | k, word, _, _, _, _⟩
  · exact ⟨.actor, rfl, by decide, congrArg some t.word.holds⟩
  · exact ⟨.message, rfl, by decide, congrArg some t.word.holds⟩
  · exact ⟨.function, rfl, by decide, congrArg some t.word.holds⟩
  · exact ⟨.block, rfl, by decide, congrArg some word.holds⟩
  · exact ⟨.entry, rfl, by decide, congrArg some k.holds⟩

section Keywords

variable {vs : List Lexeme}

theorem actor_refuses (h : upcoming vs ≠ some (.keyword .actor)) : (actor vs).result = none := by
  simp [actor, result_keyword_none h]

theorem message_refuses (h : upcoming vs ≠ some (.keyword .message)) : (message vs).result = none := by
  simp [message, result_keyword_none h]

theorem function_refuses (h : upcoming vs ≠ some (.keyword .function)) : (function vs).result = none := by
  simp [function, result_keyword_none h]

end Keywords

theorem complete_declaration (t : DeclarationTree) (u : List Lexeme) :
    (declaration (t.lexemes ++ u)).result = some (t.declaration, u) := by
  unfold declaration
  simp only [result_label, choice_cons, choice_nil, orElse_fail, result_orElse, result_map]
  cases t with
  | actor tree => rw [DeclarationTree.lexemes, complete_actor]; rfl
  | message tree =>
    have hup : upcoming (tree.lexemes ++ u) = some (.keyword .message) := congrArg some tree.word.holds
    rw [DeclarationTree.lexemes, actor_refuses (by simp [hup]), complete_message]
    rfl
  | function tree =>
    have hup : upcoming (tree.lexemes ++ u) = some (.keyword .function) := congrArg some tree.word.holds
    rw [DeclarationTree.lexemes, actor_refuses (by simp [hup]), message_refuses (by simp [hup]), complete_function]
    rfl
  | block tree =>
    -- a block is tried last, so the three before it have to refuse both of its keywords
    have hup : upcoming (tree.lexemes ++ u) = some (.keyword .entry) ∨
        upcoming (tree.lexemes ++ u) = some (.keyword .block) := by
      rcases tree with ⟨_ | k, word, _, _, _, _⟩
      · exact .inr (congrArg some word.holds)
      · exact .inl (congrArg some k.holds)
    rw [DeclarationTree.lexemes, actor_refuses (by rcases hup with h | h <;> simp [h]),
      message_refuses (by rcases hup with h | h <;> simp [h]),
      function_refuses (by rcases hup with h | h <;> simp [h]), complete_block]
    rfl

/-! ## Transactions -/

theorem complete_header (t : HeaderTree) (u : List Lexeme) :
    (header (t.lexemes ++ u)).result =
      some (((t.name.value, t.name.lexeme.span), t.description.map (·.value)), u) := by
  have hdescription := result_optionalLeaf (u := t.left.lexeme :: u) t.description
    (fun s => result_string_leaf s _) (result_string_none (by simp [t.left.holds]))
  simp [header, HeaderTree.lexemes, hdescription, -result_optional]

theorem complete_declarations (ts : List DeclarationTree) {u : List Lexeme} (h : (declaration u).result = none) :
    (many declaration (ts.flatMap DeclarationTree.lexemes ++ u)).result =
      some (ts.map DeclarationTree.declaration, u) :=
  result_many_trees (fun _ => True) (fun t => t.lexemes_ne_nil) (fun t u _ => complete_declaration t u)
    (fun _ _ => trivial) trivial h ts

/-- No declaration starts at any other token. -/
theorem declaration_refuses (h : ∀ word : Keyword, word.opensDeclaration → upcoming u ≠ some (.keyword word)) :
    (declaration u).result = none := by
  refine result_none_of_ne reads_declaration fun t vs hup => ?_
  obtain ⟨word, hopens, -, hword⟩ := upcoming_declaration t vs
  exact h word hopens (hup ▸ hword)

theorem complete_transaction (t : TransactionTree) (u : List Lexeme) :
    (transaction (t.lexemes ++ u)).result = some (t.transaction, u) := by
  have hheader := complete_header t.header
    (t.declarations.flatMap DeclarationTree.lexemes ++ t.right.lexeme :: u)
  have hdeclarations := complete_declarations t.declarations (u := t.right.lexeme :: u)
    (declaration_refuses (by simp [t.right.holds]))
  simp only [transaction, TransactionTree.lexemes, List.append_assoc, List.cons_append, List.nil_append, result_seqLeft,
    result_seq, result_map, hheader, hdeclarations, Option.map_some, Option.bind_some, result_symbol_leaf,
    assemble_declarations, TransactionTree.transaction]

theorem complete_schema (t : SchemaTree) : (schema t.lexemes).result = some (t.schema, []) := by
  have hmore := result_many_trees (u := []) (fun _ => True) (fun t => TransactionTree.lexemes_ne_nil t)
    (fun t u _ => complete_transaction t u) (fun _ _ => trivial) trivial rfl t.more
  have hfirst := complete_transaction t.first (t.more.flatMap TransactionTree.lexemes ++ [])
  simp only [List.append_nil] at hfirst hmore
  unfold schema
  rw [result_to_end]
  refine ⟨?_, rfl⟩
  simp only [many1, SchemaTree.lexemes, SchemaTree.transactions, List.flatMap_cons, result_map, result_seq, hfirst, hmore,
    Option.map_some, Option.bind_some]
  rfl

end Grammar

end Parley
