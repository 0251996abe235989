/-
Printing and reading back. The canonical text of a well-formed part of a schema holds the tokens of
a derivation that has the part as its value, up to spans: the scanner keeps apart what the text
keeps apart, and parentheses stand where the grammar needs them. So a schema is read back from its
text exactly when it is well-formed.
-/
import Parley.Proofs.Grammar.Language
import Parley.Proofs.Schema.WellFormed

namespace Parley

open Scan

/-! ## Texts of derivations -/

/-- A leaf without a place. -/
def Leaf.of {α : Type} {kind : α → Token} (value : α) : Leaf kind := ⟨value, ⟨kind value, "", .nowhere⟩, rfl⟩

@[simp] theorem Leaf.token_of {α : Type} {kind : α → Token} (value : α) :
    (Leaf.of value : Leaf kind).lexeme.token = kind value := rfl

/-- A text holds the tokens of a derivation with a given value, before anything that is as required. -/
def Prints {τ α : Type} (after : List Char → Prop) (f : τ → List Lexeme) (v : τ → α) (text : String) (a : α) : Prop :=
  ∃ t, v t = a ∧ ∀ rest, after rest → Holds text (tokensOf (f t)) rest

/-- Nothing is required of what comes after a line. -/
def Anything (_ : List Char) : Prop := True

theorem holds_indent (rest : List Char) : Holds indent [] rest :=
  .fixed [.blank ' ', .blank ' ', .blank ' ', .blank ' '] rfl rfl

theorem holds_blank (rest : List Char) : Holds " " [] rest := .fixed [.blank ' '] rfl rfl

theorem holds_feed (rest : List Char) : Holds "\n" [] rest := .fixed [.blank '\n'] rfl rfl

/-- Each member of a list is printed from a derivation. -/
theorem exists_trees {τ α β : Type} {after : List Char → Prop} {f : τ → List Lexeme} {v : τ → β} {p : α → String}
    {w : α → β} {as : List α} (h : ∀ a ∈ as, Prints after f v (p a) (w a)) :
    ∃ ts : List τ, ts.map v = as.map w ∧
      List.Forall₂ (fun a t => ∀ rest, after rest → Holds (p a) (tokensOf (f t)) rest) as ts := by
  induction as with
  | nil => exact ⟨[], rfl, .nil⟩
  | cons a as ih =>
    obtain ⟨hv, h⟩ := List.forall_mem_cons.1 h
    obtain ⟨t, hv, hholds⟩ := hv
    obtain ⟨ts, hvs, hall⟩ := ih h
    exact ⟨t :: ts, by rw [List.map_cons, List.map_cons, hv, hvs], .cons hholds hall⟩

/-- Members with a mark between them. -/
theorem holds_separated {τ α : Type} {f : τ → List Lexeme} {p : α → String} {sep : String} {mark : Symbol}
    (hsep : ∀ rest, Holds sep [.symbol mark] rest) (hapart : ∀ rest, Apart (sep.toList ++ rest))
    {a : α} {as : List α} {t : τ} {ts : List τ}
    (ht : ∀ rest, Apart rest → Holds (p a) (tokensOf (f t)) rest)
    (hts : List.Forall₂ (fun a t => ∀ rest, Apart rest → Holds (p a) (tokensOf (f t)) rest) as ts)
    {rest : List Char} (hrest : Apart rest) :
    Holds (sep.intercalate ((a :: as).map p)) (tokensOf (f t) ++ ts.flatMap fun t => .symbol mark :: tokensOf (f t)) rest := by
  induction hts generalizing a t with
  | nil =>
    rw [List.map_singleton, String.intercalate_singleton, List.flatMap_nil, List.append_nil]
    exact ht rest hrest
  | cons hb _ ih =>
    rw [List.map_cons, List.map_cons, String.intercalate_cons_cons]
    exact (((ht _ (hapart _)).append (hsep _)).append (ih hb)).congr (by simp)

theorem holds_lines {τ α : Type} {f : τ → List Lexeme} {p : α → String} {as : List α} {ts : List τ}
    (h : List.Forall₂ (fun a t => ∀ rest, Anything rest → Holds (p a) (tokensOf (f t)) rest) as ts) (rest : List Char) :
    Holds (String.join (as.map p)) (tokensOf (ts.flatMap f)) rest := by
  induction h with
  | nil => exact .empty
  | cons h _ ih =>
    rw [List.map_cons, String.join_cons, List.flatMap_cons, tokensOf_append]
    exact (h _ trivial).append ih

/-! ## Types -/

theorem TypeExpr.print_head {type : TypeExpr} (h : type.WellFormed) :
    ∃ c w, type.print.toList = c :: w ∧ CharClass.startsName c = true := by
  rcases type with ⟨name, _ | ⟨arg, args⟩, _⟩
  · obtain ⟨c, w, hchars, hstarts, -⟩ := IsName.toList h.1
    exact ⟨c, w, hchars, hstarts⟩
  · obtain ⟨c, w, hchars, hstarts, -⟩ := IsName.toList h.1
    simp only [print, String.toList_append, hchars, List.cons_append]
    exact ⟨c, _, rfl, hstarts⟩

theorem TypeExpr.apart_printRest (types : List TypeExpr) {rest : List Char} (hrest : Apart rest) :
    Apart ((printRest types).toList ++ rest) := by
  cases types with
  | nil => exact hrest
  | cons type types =>
    rw [printRest, String.append_assoc, String.toList_append, List.append_assoc]
    exact .fixed rfl (by decide)

mutual

theorem TypeExpr.prints : ∀ type : TypeExpr, type.WellFormed →
    Prints Apart TypeTree.lexemes (fun t => t.type.bare) type.print type.bare
  | ⟨name, [], _⟩, h => ⟨.plain (Leaf.of name), rfl, fun _ hrest => .name h.1 hrest⟩
  | ⟨name, arg :: args, _⟩, h => by
    obtain ⟨hname, harg, hargs⟩ := h
    obtain ⟨first, hfirst, hholds⟩ := TypeExpr.prints arg harg
    obtain ⟨more, hmore, hholds'⟩ := TypeExpr.printsRest args hargs
    refine ⟨.applied (Leaf.of name) (Leaf.of ()) first more (Leaf.of ()), ?_, fun rest hrest => ?_⟩
    · simp only [TypeTree.type, TypeExpr.bare, TypeExpr.bareAll, hfirst, hmore]
      rfl
    · rw [TypeExpr.print]
      -- `<` may not run into a following `=`, and a type starts with a name
      have hless : ∀ r, Holds "<" [.symbol .less] (arg.print.toList ++ r) := fun r => by
        refine Holds.mark .less fun _ => ?_
        obtain ⟨c, w, hchars, hstarts⟩ := TypeExpr.print_head harg
        rw [hchars]
        exact fun h => startsName_ne hstarts (by decide) (Option.some.inj h)
      have hgreater : Holds ">" [.symbol .greater] rest := .token (t := .symbol .greater) trivial hrest
      have hclose : Apart (">".toList ++ rest) := .fixed rfl (by decide)
      exact (((((Holds.name hname (.fixed rfl (by decide))).append (hless _)).append
        (hholds _ (TypeExpr.apart_printRest args hclose))).append (hholds' _ hclose)).append hgreater).congr
        (by simp [TypeTree.lexemes])

theorem TypeExpr.printsRest : ∀ types : List TypeExpr, TypeExpr.AllWellFormed types →
    Prints Apart TypeTrees.lexemes (fun ts => TypeExpr.bareAll ts.types) (TypeExpr.printRest types) (TypeExpr.bareAll types)
  | [], _ => ⟨.none, rfl, fun _ _ => .empty⟩
  | type :: types, h => by
    obtain ⟨first, hfirst, hholds⟩ := TypeExpr.prints type h.1
    obtain ⟨more, hmore, hholds'⟩ := TypeExpr.printsRest types h.2
    refine ⟨.more (Leaf.of ()) first more, ?_, fun rest hrest => ?_⟩
    · simp only [TypeTrees.types, TypeExpr.bareAll, hfirst, hmore]
    · rw [TypeExpr.printRest]
      have hcomma : ∀ r, Holds ", " [.symbol .comma] r := fun r => .fixed [.mark .comma, .blank ' '] rfl rfl
      exact (((hcomma _).append (hholds _ (TypeExpr.apart_printRest types hrest))).append (hholds' _ hrest)).congr
        (by simp [TypeTrees.lexemes])

end

/-! ## Expressions -/

/-- The conjuncts with one more. -/
def AndTail.snoc : AndTail → SymbolLeaf .and → UnaryTree → AndTail
  | .none, mark, item => .more mark item .none
  | .more mark' item' rest, mark, item => .more mark' item' (rest.snoc mark item)

theorem AndTail.onto_snoc : ∀ (t : AndTail) (mark : SymbolLeaf .and) (item : UnaryTree) (e : Expr),
    (t.snoc mark item).onto e = .binary .and (t.onto e) item.expr
  | .none, _, _, _ => rfl
  | .more _ _ rest, mark, item, _ => rest.onto_snoc mark item _

theorem AndTail.lexemes_snoc : ∀ (t : AndTail) (mark : SymbolLeaf .and) (item : UnaryTree),
    (t.snoc mark item).lexemes = t.lexemes ++ mark.lexeme :: item.lexemes
  | .none, _, _ => by simp [AndTail.snoc, AndTail.lexemes]
  | .more _ _ rest, mark, item => by simp [AndTail.snoc, AndTail.lexemes, rest.lexemes_snoc]

/-- The disjuncts with one more. -/
def OrTail.snoc : OrTail → SymbolLeaf .or → AndTree → OrTail
  | .none, mark, item => .more mark item .none
  | .more mark' item' rest, mark, item => .more mark' item' (rest.snoc mark item)

theorem OrTail.onto_snoc : ∀ (t : OrTail) (mark : SymbolLeaf .or) (item : AndTree) (e : Expr),
    (t.snoc mark item).onto e = .binary .or (t.onto e) item.expr
  | .none, _, _, _ => rfl
  | .more _ _ rest, mark, item, _ => rest.onto_snoc mark item _

theorem OrTail.lexemes_snoc : ∀ (t : OrTail) (mark : SymbolLeaf .or) (item : AndTree),
    (t.snoc mark item).lexemes = t.lexemes ++ mark.lexeme :: item.lexemes
  | .none, _, _ => by simp [OrTail.snoc, OrTail.lexemes]
  | .more _ _ rest, mark, item => by simp [OrTail.snoc, OrTail.lexemes, rest.lexemes_snoc]

/-- A text in parentheses, whatever comes after them. -/
theorem holds_parenthesized {a : String} {ts : List Token} (ha : ∀ rest, Apart rest → Holds a ts rest) (rest : List Char) :
    Holds ("(" ++ a ++ ")") (.symbol .openParen :: (ts ++ [.symbol .closeParen])) rest := by
  have hopen : ∀ r, Holds "(" [.symbol .openParen] r := fun r => .fixed [.mark .openParen] rfl rfl
  have hclose : Holds ")" [.symbol .closeParen] rest := .fixed [.mark .closeParen] rfl rfl
  exact (((hopen _).append (ha _ (.fixed rfl (by decide)))).append hclose).congr (by simp)

/-- A text behind a negation, which may not run into a following `=`. -/
theorem holds_negated {a : String} {ts : List Token} {rest : List Char} (hhead : a.toList.head?.any (· ≠ '=') = true)
    (ha : Holds a ts rest) : Holds ("!" ++ a) (.symbol .not :: ts) rest := by
  have hnot : Holds "!" [.symbol .not] (a.toList ++ rest) := by
    refine Holds.mark .not fun _ => ?_
    cases hchars : a.toList with
    | nil => rw [hchars] at hhead; cases hhead
    | cons c w => simpa [hchars] using hhead
  exact hnot.append ha

/-- Two texts with an operator between them. -/
theorem holds_operation {a b : String} (mark : Symbol) {ts us : List Token} (ha : ∀ rest, Apart rest → Holds a ts rest)
    (hb : ∀ rest, Apart rest → Holds b us rest) {rest : List Char} (hrest : Apart rest) :
    Holds (a ++ " " ++ mark.spelling ++ " " ++ b) (ts ++ .symbol mark :: us) rest := by
  have hmark : ∀ r, Holds mark.spelling [.symbol mark] (" ".toList ++ r) := fun r =>
    .token (t := .symbol mark) trivial (.fixed rfl (by decide))
  exact (((((ha _ (.fixed rfl (by decide))).append (holds_blank _)).append (hmark _)).append (holds_blank _)).append
    (hb _ hrest)).congr (by simp)

/-- Names with dots between them. -/
theorem holds_dotted {first : String} {more : List String} (hfirst : IsName first) (hmore : ∀ word ∈ more, IsName word)
    {rest : List Char} (hrest : Apart rest) : Holds (".".intercalate (first :: more))
      (.name first :: more.flatMap fun word => [.symbol .dot, .name word]) rest := by
  have hdot : ∀ r, Holds "." [.symbol .dot] r := fun r => .fixed [.mark .dot] rfl rfl
  have hname : ∀ word, IsName word → ∀ rest, Apart rest →
      Holds (id word) (tokensOf [(Leaf.of word : NameLeaf).lexeme]) rest := fun _ h _ hrest => .name h hrest
  have hholds := holds_separated (f := fun word => [(Leaf.of word : NameLeaf).lexeme]) (p := id) hdot
    (fun _ => .fixed rfl (by decide)) (hname first hfirst) (List.forall₂_same.2 fun word hword => hname word (hmore word hword)) hrest
  rw [List.map_id] at hholds
  exact hholds

/-- The levels of the grammar at which an expression is read back from a text. -/
abbrev PrintsOperand : String → Expr → Prop := Prints Apart OperandTree.lexemes OperandTree.expr

abbrev PrintsUnary : String → Expr → Prop := Prints Apart UnaryTree.lexemes UnaryTree.expr

abbrev PrintsAnd : String → Expr → Prop := Prints Apart AndTree.lexemes AndTree.expr

abbrev PrintsOr : String → Expr → Prop := Prints Apart OrTree.lexemes OrTree.expr

section Levels

variable {text : String} {e : Expr}

theorem PrintsOperand.unary : PrintsOperand text e → PrintsUnary text e
  | ⟨t, he, h⟩ => ⟨.cmp (.operand t), he, h⟩

theorem PrintsUnary.and : PrintsUnary text e → PrintsAnd text e
  | ⟨t, he, h⟩ => ⟨.mk t .none, he, by simpa [AndTree.lexemes, AndTail.lexemes] using h⟩

theorem PrintsAnd.or : PrintsAnd text e → PrintsOr text e
  | ⟨t, he, h⟩ => ⟨.mk t .none, he, by simpa [OrTree.lexemes, OrTail.lexemes] using h⟩

theorem PrintsOr.parenthesized : PrintsOr text e → PrintsOperand ("(" ++ text ++ ")") e
  | ⟨t, he, h⟩ => ⟨.parenthesized (Leaf.of ()) t (Leaf.of ()), he, fun rest _ =>
      (holds_parenthesized h rest).congr (by simp [OperandTree.lexemes])⟩

theorem PrintsOr.operand_wrapped {wrap : Bool} (h : PrintsOr text e) (hbare : wrap = false → PrintsOperand text e) :
    PrintsOperand (Expr.parenthesized wrap text) e := by
  cases wrap with
  | false => exact hbare rfl
  | true => exact h.parenthesized

theorem PrintsOr.unary_wrapped {wrap : Bool} (h : PrintsOr text e) (hbare : wrap = false → PrintsUnary text e) :
    PrintsUnary (Expr.parenthesized wrap text) e := by
  cases wrap with
  | false => exact hbare rfl
  | true => exact h.parenthesized.unary

theorem PrintsOr.and_wrapped {wrap : Bool} (h : PrintsOr text e) (hbare : wrap = false → PrintsAnd text e) :
    PrintsAnd (Expr.parenthesized wrap text) e := by
  cases wrap with
  | false => exact hbare rfl
  | true => exact h.parenthesized.unary.and

theorem PrintsOr.or_wrapped {wrap : Bool} (h : PrintsOr text e) : PrintsOr (Expr.parenthesized wrap text) e := by
  cases wrap with
  | false => exact h
  | true => exact h.parenthesized.unary.and.or

end Levels

section Operators

variable {a b : String} {l r : Expr}

theorem PrintsOperand.compared (hl : PrintsOperand a l) (hr : PrintsOperand b r) (c : Comparison) :
    PrintsUnary (a ++ " " ++ c.operator.spelling ++ " " ++ b) (.binary c.operator l r) := by
  obtain ⟨t, rfl, ht⟩ := hl
  obtain ⟨u, rfl, hu⟩ := hr
  refine ⟨.cmp (.compared t (Leaf.of c) u), rfl, fun rest hrest => ?_⟩
  have hspelling : c.operator.spelling = c.symbol.spelling := by cases c <;> rfl
  rw [hspelling]
  exact (holds_operation c.symbol ht hu hrest).congr (by simp [UnaryTree.lexemes, CmpTree.lexemes])

theorem PrintsAnd.conjoined (hl : PrintsAnd a l) (hr : PrintsUnary b r) :
    PrintsAnd (a ++ " " ++ Operator.and.spelling ++ " " ++ b) (.binary .and l r) := by
  obtain ⟨⟨head, tail⟩, rfl, ht⟩ := hl
  obtain ⟨u, rfl, hu⟩ := hr
  refine ⟨.mk head (tail.snoc (Leaf.of ()) u), ?_, fun rest hrest => ?_⟩
  · rw [AndTree.expr, AndTail.onto_snoc]; rfl
  · exact (holds_operation .and ht hu hrest).congr (by simp [AndTree.lexemes, AndTail.lexemes_snoc])

theorem PrintsOr.disjoined (hl : PrintsOr a l) (hr : PrintsAnd b r) :
    PrintsOr (a ++ " " ++ Operator.or.spelling ++ " " ++ b) (.binary .or l r) := by
  obtain ⟨⟨head, tail⟩, rfl, ht⟩ := hl
  obtain ⟨u, rfl, hu⟩ := hr
  refine ⟨.mk head (tail.snoc (Leaf.of ()) u), ?_, fun rest hrest => ?_⟩
  · rw [OrTree.expr, OrTail.onto_snoc]; rfl
  · exact (holds_operation .or ht hu hrest).congr (by simp [OrTree.lexemes, OrTail.lexemes_snoc])

theorem PrintsUnary.not (h : PrintsUnary a l) (hhead : a.toList.head?.any (· ≠ '=') = true) :
    PrintsUnary ("!" ++ a) (.not l) := by
  obtain ⟨t, rfl, ht⟩ := h
  exact ⟨.not (Leaf.of ()) t, rfl, fun rest hrest => (holds_negated hhead (ht _ hrest)).congr (by simp [UnaryTree.lexemes])⟩

theorem prints_path {segments : List String} (hne : segments ≠ []) (h : ∀ segment ∈ segments, IsName segment) :
    PrintsOperand (".".intercalate segments) (.path segments) := by
  obtain ⟨first, more, rfl⟩ := List.exists_cons_of_ne_nil hne
  obtain ⟨hfirst, hmore⟩ := List.forall_mem_cons.1 h
  refine ⟨.path (Leaf.of first) (more.map fun word => (Leaf.of (), Leaf.of word)), ?_, fun rest hrest => ?_⟩
  · simp [OperandTree.expr, Function.comp_def, Leaf.of]
  · refine (holds_dotted hfirst hmore hrest).congr ?_
    simp [OperandTree.lexemes, tokensOf, List.map_flatMap, List.flatMap_map]

end Operators

/-- Names joined by dots start as the first of them does. -/
theorem toList_dotted {segments : List String} (hne : segments ≠ []) (h : ∀ segment ∈ segments, IsName segment) :
    ∃ c w, (".".intercalate segments).toList = c :: w ∧ CharClass.startsName c = true := by
  obtain ⟨first, more, rfl⟩ := List.exists_cons_of_ne_nil hne
  obtain ⟨c, w, hchars, hstarts, -⟩ := IsName.toList (h first List.mem_cons_self)
  cases more with
  | nil => exact ⟨c, w, by rw [String.intercalate_singleton, hchars], hstarts⟩
  | cons second more =>
    rw [String.intercalate_cons_cons, String.append_assoc, String.toList_append, hchars]
    exact ⟨c, _, rfl, hstarts⟩

theorem Expr.head_parenthesized {text : String} (wrap : Bool) (h : text.toList.head?.any (· ≠ '=') = true) :
    (parenthesized wrap text).toList.head?.any (· ≠ '=') = true := by
  cases wrap with
  | false => exact h
  | true => rw [parenthesized, if_pos rfl, String.append_assoc, String.toList_append]; rfl

/-- The first character of an expression is not one that a negation before it takes. -/
theorem Expr.print_head {e : Expr} (h : e.WellFormed) : e.print.toList.head?.any (· ≠ '=') = true := by
  have happend : ∀ a b : String, a.toList.head?.any (· ≠ '=') = true → (a ++ b).toList.head?.any (· ≠ '=') = true := by
    intro a b ha
    obtain ⟨c, hc, hne⟩ := (Option.any_eq_true _ _).1 ha
    rw [String.toList_append, List.head?_append, hc]
    exact hne
  induction e with
  | path segments =>
    obtain ⟨c, w, hchars, hstarts⟩ := toList_dotted h.1 h.2
    rw [print, hchars]
    simpa using startsName_ne hstarts (by decide)
  | integer value =>
    obtain ⟨-, c, w, -, hchars, hdigit, -⟩ := digits_of_integer h
    have hne : c ≠ '=' := by rintro rfl; cases hdigit '=' List.mem_cons_self
    rw [print, hchars]
    simpa using hne
  | string value => rw [print, Quoted.literal, String.toList_ofList]; rfl
  | boolean value => cases value <;> rfl
  | not inner => rw [print, String.toList_append]; rfl
  | binary op left right ih _ =>
    have hleft := head_parenthesized (wrapsLeft op left) (ih h.1)
    rw [print]
    exact happend _ _ (happend _ _ (happend _ _ (happend _ _ hleft)))

/-- An expression is read back at the level of its outermost operator and at those above it. -/
structure Expr.ReadBack (e : Expr) : Prop where
  operand : e.isAtom = true → PrintsOperand e.print e
  unary : e.precedence?.any (· < 3) = false → PrintsUnary e.print e
  and : e.precedence?.any (· < 2) = false → PrintsAnd e.print e
  or : PrintsOr e.print e

theorem Expr.ReadBack.of_operand {e : Expr} (h : PrintsOperand e.print e) : e.ReadBack :=
  ⟨fun _ => h, fun _ => h.unary, fun _ => h.unary.and, h.unary.and.or⟩

theorem Expr.ReadBack.of_unary {e : Expr} (hatom : e.isAtom = false) (h : PrintsUnary e.print e) : e.ReadBack :=
  ⟨fun h => (by rw [hatom] at h; cases h), fun _ => h, fun _ => h.and, h.and.or⟩

theorem Expr.readBack {e : Expr} (h : e.WellFormed) : e.ReadBack := by
  induction e with
  | path segments => exact .of_operand (prints_path h.1 h.2)
  | integer value =>
    refine .of_operand ⟨.integer (Leaf.of value), rfl, fun rest hrest => ?_⟩
    exact Holds.token (t := .integer value) h hrest
  | string value => exact .of_operand ⟨.string (Leaf.of value), rfl, fun rest hrest => .literal value hrest⟩
  | boolean value =>
    cases value with
    | false => exact .of_operand ⟨.no (Leaf.of ()), rfl, fun rest hrest => Holds.token (t := .keyword .no) trivial hrest⟩
    | true => exact .of_operand ⟨.yes (Leaf.of ()), rfl, fun rest hrest => Holds.token (t := .keyword .yes) trivial hrest⟩
  | not inner ih =>
    have hinner := ih h
    exact .of_unary rfl ((hinner.or.unary_wrapped hinner.unary).not (head_parenthesized _ (print_head h)))
  | binary op left right ihl ihr =>
    have hl := ihl h.1
    have hr := ihr h.2
    have hcompared : ∀ c : Comparison, wrapsLeft c.operator left = !left.isAtom → wrapsRight c.operator right = !right.isAtom →
        PrintsUnary (Expr.binary c.operator left right).print (.binary c.operator left right) := by
      intro c hwl hwr
      rw [print, hwl, hwr]
      exact (hl.or.operand_wrapped fun h => hl.operand (by simpa using h)).compared
        (hr.or.operand_wrapped fun h => hr.operand (by simpa using h)) c
    -- to the right an operator of the same precedence is in parentheses: operators group to the left
    have hle : ∀ n, right.precedence?.any (· ≤ n) = right.precedence?.any (· < n + 1) := fun n => by
      simp only [Nat.lt_succ_iff]
    cases op with
    | equal => exact .of_unary rfl (hcompared .equal rfl rfl)
    | notEqual => exact .of_unary rfl (hcompared .notEqual rfl rfl)
    | less => exact .of_unary rfl (hcompared .less rfl rfl)
    | greater => exact .of_unary rfl (hcompared .greater rfl rfl)
    | atMost => exact .of_unary rfl (hcompared .atMost rfl rfl)
    | atLeast => exact .of_unary rfl (hcompared .atLeast rfl rfl)
    | and =>
      have hand : PrintsAnd (Expr.binary .and left right).print (.binary .and left right) :=
        (hl.or.and_wrapped hl.and).conjoined (hr.or.unary_wrapped fun h => hr.unary ((hle 2).symm.trans h))
      exact ⟨nofun, nofun, fun _ => hand, hand.or⟩
    | or =>
      have hor : PrintsOr (Expr.binary .or left right).print (.binary .or left right) :=
        hl.or.or_wrapped.disjoined (hr.or.and_wrapped fun h => hr.and ((hle 1).symm.trans h))
      exact ⟨nofun, nofun, nofun, hor⟩

/-! ## Statements -/

/-- Members with commas between them, or none. -/
theorem holds_commaSeparated {τ α β : Type} {f : τ → List Lexeme} {v : τ → β} {p : α → String} {w : α → β} {as : List α}
    (h : ∀ a ∈ as, Prints Apart f v (p a) (w a)) :
    ∃ o : Option (Separated τ), o.elim [] (Separated.values v) = as.map w ∧ ∀ rest, Apart rest →
      Holds (commaSeparated (as.map p)) (tokensOf (optionalLexemes (Separated.lexemes f) o)) rest := by
  obtain ⟨ts, hvs, hall⟩ := exists_trees h
  cases hall with
  | nil => exact ⟨none, rfl, fun _ _ => by rw [commaSeparated, List.map_nil, String.intercalate_nil]; exact .empty⟩
  | @cons a t as ts ht hts =>
    refine ⟨some ⟨t, ts.map fun t => (Leaf.of (), t)⟩, ?_, fun rest hrest => ?_⟩
    · rw [← hvs]
      simp [Separated.values, Function.comp_def]
    · have hcomma : ∀ r, Holds ", " [.symbol .comma] r := fun r => .fixed [.mark .comma, .blank ' '] rfl rfl
      refine (holds_separated hcomma (fun _ => .fixed rfl (by decide)) ht hts hrest).congr ?_
      simp [optionalLexemes, Separated.lexemes, tokensOf, List.map_flatMap, List.flatMap_map]

theorem Action.prints {a : Action} (h : a.WellFormed) :
    Prints Apart ActionTree.lexemes (fun t => t.action.bare) a.print a.bare := by
  cases a with
  | send message =>
    refine ⟨.send (Leaf.of ()) (Leaf.of message.name), rfl, fun rest hrest => ?_⟩
    have hword : ∀ r, Holds "send " [.keyword .send] r := fun r => .fixed [.word .send, .blank ' '] rfl rfl
    exact (hword _).append (.name h hrest)
  | goto block =>
    refine ⟨.goto (Leaf.of ()) (Leaf.of block.name), rfl, fun rest hrest => ?_⟩
    have hword : ∀ r, Holds "goto " [.keyword .goto] r := fun r => .fixed [.word .goto, .blank ' '] rfl rfl
    exact (hword _).append (.name h hrest)
  | call function args =>
    obtain ⟨o, hargs, hholds⟩ := holds_commaSeparated (p := Expr.print) (w := id) fun e he => (Expr.readBack (h.2 e he)).or
    refine ⟨.call (Leaf.of ()) (Leaf.of function.name) (Leaf.of ()) o (Leaf.of ()), ?_, fun rest hrest => ?_⟩
    · rw [List.map_id] at hargs
      simp only [ActionTree.action, bare, hargs]
      rfl
    · have hword : ∀ r, Holds "call " [.keyword .call] r := fun r => .fixed [.word .call, .blank ' '] rfl rfl
      have hopen : ∀ r, Holds "(" [.symbol .openParen] r := fun r => .fixed [.mark .openParen] rfl rfl
      have hclose : Holds ")" [.symbol .closeParen] rest := .fixed [.mark .closeParen] rfl rfl
      exact (((((hword _).append (.name h.1 (.fixed rfl (by decide)))).append (hopen _)).append
        (hholds _ (.fixed rfl (by decide)))).append hclose).congr (by simp [ActionTree.lexemes])

theorem Statement.prints {s : Statement} (h : s.WellFormed) :
    Prints Apart StatementTree.lexemes (fun t => t.statement.bare) s.print s.bare := by
  obtain ⟨action, haction, hholds⟩ := Action.prints h.1
  rcases s with ⟨a, _ | e, span⟩
  · refine ⟨⟨action, none⟩, ?_, fun rest hrest => ?_⟩
    · simp [StatementTree.statement, bare, haction]
    · exact ((hholds _ hrest).append .empty).congr (by simp [StatementTree.lexemes, optionalLexemes])
  · obtain ⟨condition, hcondition, hholds'⟩ := (Expr.readBack (h.2 e rfl)).or
    refine ⟨⟨action, some ⟨Leaf.of (), condition⟩⟩, ?_, fun rest hrest => ?_⟩
    · simp [StatementTree.statement, bare, haction, hcondition]
    · have hword : ∀ r, Holds " when " [.keyword .when] r := fun r => .fixed [.blank ' ', .word .when, .blank ' '] rfl rfl
      refine ((hholds _ ?_).append ((hword _).append (hholds' _ hrest))).congr
        (by simp [StatementTree.lexemes, optionalLexemes, GuardTree.lexemes])
      rw [String.toList_append, List.append_assoc]
      exact .fixed rfl (by decide)

/-! ## Declarations -/

theorem holds_bracedLines {lines : List String} {ts : List Token} (h : ∀ rest, Holds (String.join lines) ts rest)
    (rest : List Char) : Holds (bracedLines lines) (.symbol .openBrace :: (ts ++ [.symbol .closeBrace])) rest := by
  unfold bracedLines
  split
  · obtain rfl : lines = [] := List.isEmpty_iff.1 ‹_›
    rw [(h rest).eq_nil]
    exact .fixed [.blank ' ', .mark .openBrace, .mark .closeBrace, .blank '\n'] rfl rfl
  · have hopen : ∀ r, Holds " \x7b\n" [.symbol .openBrace] r := fun r =>
      .fixed [.blank ' ', .mark .openBrace, .blank '\n'] rfl rfl
    have hclose : Holds "\x7d\n" [.symbol .closeBrace] rest := .fixed [.mark .closeBrace, .blank '\n'] rfl rfl
    exact ((((hopen _).append (h _)).append (holds_indent _)).append hclose).congr (by simp)

theorem apart_bracedLines (lines : List String) {rest : List Char} : Apart ((bracedLines lines).toList ++ rest) := by
  unfold bracedLines
  split
  · exact .fixed rfl (by decide)
  · rw [String.append_assoc, String.append_assoc, String.toList_append, List.append_assoc]
    exact .fixed rfl (by decide)

theorem prints_binding {name : String} {type : TypeExpr} (hname : IsName name) (h : type.WellFormed) :
    Prints Apart BindingTree.lexemes (fun t => (t.name.value, t.type.type.bare)) (name ++ ": " ++ type.print)
      (name, type.bare) := by
  obtain ⟨t, ht, hholds⟩ := type.prints h
  refine ⟨⟨Leaf.of name, Leaf.of (), t⟩, Prod.ext rfl ht, fun rest hrest => ?_⟩
  have hcolon : ∀ r, Holds ": " [.symbol .colon] r := fun r => .fixed [.mark .colon, .blank ' '] rfl rfl
  exact (((Holds.name hname (.fixed rfl (by decide))).append (hcolon _)).append (hholds _ hrest)).congr
    (by simp [BindingTree.lexemes])

theorem Actor.prints {a : Actor} (h : a.WellFormed) :
    Prints Anything ActorTree.lexemes (fun t => t.actor.bare) a.print a.bare := by
  have hword : ∀ r, Holds "actor " [.keyword .actor] r := fun r => .fixed [.word .actor, .blank ' '] rfl rfl
  rcases a with ⟨name, _ | role, span⟩
  · refine ⟨⟨Leaf.of (), Leaf.of name, Leaf.of (), none, Leaf.of ()⟩, rfl, fun rest _ => ?_⟩
    have hclose : Holds " \x7b\x7d\n" [.symbol .openBrace, .symbol .closeBrace] rest :=
      .fixed [.blank ' ', .mark .openBrace, .mark .closeBrace, .blank '\n'] rfl rfl
    exact ((((holds_indent _).append (hword _)).append (.name h (.fixed rfl (by decide)))).append hclose).congr
      (by simp [ActorTree.lexemes, optionalLexemes])
  · refine ⟨⟨Leaf.of (), Leaf.of name, Leaf.of (), some ⟨Leaf.of (), Leaf.of (), .string (Leaf.of role), none⟩, Leaf.of ()⟩,
      rfl, fun rest _ => ?_⟩
    have hopen : ∀ r, Holds " \x7b role: " [.symbol .openBrace, .keyword .role, .symbol .colon] r := fun r =>
      .fixed [.blank ' ', .mark .openBrace, .blank ' ', .word .role, .mark .colon, .blank ' '] rfl rfl
    have hclose : Holds " \x7d\n" [.symbol .closeBrace] rest := .fixed [.blank ' ', .mark .closeBrace, .blank '\n'] rfl rfl
    refine ((((holds_indent _).append (hword _)).append (.name h ?_)).append
      (((hopen _).append (.literal role (.fixed rfl (by decide)))).append hclose)).congr ?_
    · simp only [String.toList_append, List.append_assoc]
      exact .fixed rfl (by decide)
    · simp [ActorTree.lexemes, optionalLexemes, RoleTree.lexemes, optionalLeaf, RoleValue.lexeme]

theorem Field.prints {f : Field} (h : f.WellFormed) :
    Prints Anything (closedLexemes BindingTree.lexemes) (fun x : BindingTree × Option (SymbolLeaf .comma) => x.1.field.bare)
      f.print f.bare := by
  obtain ⟨t, ht, hholds⟩ := prints_binding h.1 h.2
  refine ⟨(t, some (Leaf.of ())), ?_, fun rest _ => ?_⟩
  · obtain ⟨hname, htype⟩ := Prod.mk.inj ht
    simp only [BindingTree.field, bare, hname, htype]
  · have hclose : Holds ",\n" [.symbol .comma] rest := .fixed [.mark .comma, .blank '\n'] rfl rfl
    have hline : f.print = indent ++ indent ++ (f.name ++ ": " ++ f.type.print) ++ ",\n" := by
      simp only [print, String.append_assoc]
    rw [hline]
    exact ((((holds_indent _).append (holds_indent _)).append (hholds _ (.fixed rfl (by decide)))).append hclose).congr
      (by simp [closedLexemes, optionalLeaf, optionalLexemes])

theorem Message.prints {m : Message} (h : m.WellFormed) :
    Prints Anything MessageTree.lexemes (fun t => t.message.bare) m.print m.bare := by
  obtain ⟨hname, hsender, hreceiver, hfields⟩ := h
  obtain ⟨fields, hvs, hall⟩ := exists_trees fun f hf => Field.prints (hfields f hf)
  refine ⟨⟨Leaf.of (), Leaf.of m.name, Leaf.of m.sender.name, Leaf.of (), Leaf.of m.receiver.name, Leaf.of (), fields,
    Leaf.of ()⟩, ?_, fun rest _ => ?_⟩
  · simp only [MessageTree.message, bare, List.map_map, ← hvs]
    rfl
  · have hword : ∀ r, Holds "message " [.keyword .message] r := fun r => .fixed [.word .message, .blank ' '] rfl rfl
    have harrow : ∀ r, Holds " -> " [.symbol .arrow] r := fun r => .fixed [.blank ' ', .mark .arrow, .blank ' '] rfl rfl
    have hlines := holds_bracedLines (holds_lines hall) rest
    refine ((((((((holds_indent _).append (hword _)).append (.name hname (.fixed rfl (by decide)))).append
      (holds_blank _)).append (.name hsender (.fixed rfl (by decide)))).append (harrow _)).append
      (.name hreceiver (apart_bracedLines _))).append hlines).congr ?_
    simp [MessageTree.lexemes]

theorem Param.prints {p : Param} (h : p.WellFormed) : Prints Apart BindingTree.lexemes (fun t => t.param.bare) p.print p.bare := by
  obtain ⟨t, ht, hholds⟩ := prints_binding h.1 h.2
  refine ⟨t, ?_, hholds⟩
  obtain ⟨hname, htype⟩ := Prod.mk.inj ht
  simp only [BindingTree.param, bare, hname, htype]

/-- The end of a function, with its description if it has one. -/
theorem holds_description (description : Option String) (rest : List Char) :
    Holds (description.elim " \x7b\x7d\n" fun text => " \x7b " ++ Quoted.literal text ++ " \x7d\n")
      (.symbol .openBrace :: (tokensOf (optionalLeaf (description.map (Leaf.of : String → StringLeaf))) ++ [.symbol .closeBrace])) rest := by
  cases description with
  | none => exact .fixed [.blank ' ', .mark .openBrace, .mark .closeBrace, .blank '\n'] rfl rfl
  | some text =>
    have hopen : ∀ r, Holds " \x7b " [.symbol .openBrace] r := fun r =>
      .fixed [.blank ' ', .mark .openBrace, .blank ' '] rfl rfl
    have hclose : Holds " \x7d\n" [.symbol .closeBrace] rest := .fixed [.blank ' ', .mark .closeBrace, .blank '\n'] rfl rfl
    exact ((hopen _).append (.literal text (.fixed rfl (by decide)))).append hclose

theorem Function.prints {f : Function} (h : f.WellFormed) :
    Prints Anything FunctionTree.lexemes (fun t => t.function.bare) f.print f.bare := by
  obtain ⟨hname, hparams, hreturns⟩ := h
  obtain ⟨o, hvs, hholds⟩ := holds_commaSeparated fun p hp => Param.prints (hparams p hp)
  obtain ⟨type, htype, hholds'⟩ := f.returns.prints hreturns
  refine ⟨⟨Leaf.of (), Leaf.of f.name, Leaf.of (), o.map fun ps => ⟨ps, none⟩, Leaf.of (), some ⟨Leaf.of (), type⟩,
    Leaf.of (), f.description.map Leaf.of, Leaf.of ()⟩, ?_, fun rest _ => ?_⟩
  · have hparams : ((o.map fun ps => (⟨ps, none⟩ : ParamsTree)).elim [] fun ps => ps.params.values BindingTree.param).map
        Param.bare = f.params.map Param.bare := by
      rw [← hvs]
      cases o <;> simp [Separated.values, Function.comp_def]
    have hdescription : (f.description.map (Leaf.of : String → StringLeaf)).map (·.value) = f.description := by
      cases f.description <;> rfl
    simp only [FunctionTree.function, bare, hparams, hdescription, Option.elim_some, htype]
    rfl
  · have hword : ∀ r, Holds "function " [.keyword .function] r := fun r => .fixed [.word .function, .blank ' '] rfl rfl
    have hopen : ∀ r, Holds "(" [.symbol .openParen] r := fun r => .fixed [.mark .openParen] rfl rfl
    have harrow : ∀ r, Holds ") -> " [.symbol .closeParen, .symbol .arrow] r := fun r =>
      .fixed [.mark .closeParen, .blank ' ', .mark .arrow, .blank ' '] rfl rfl
    refine ((((((((holds_indent _).append (hword _)).append (.name hname (.fixed rfl (by decide)))).append (hopen _)).append
      (hholds _ (.fixed rfl (by decide)))).append (harrow _)).append (hholds' _ ?_)).append
      (holds_description f.description rest)).congr ?_
    · cases f.description with
      | none => exact .fixed rfl (by decide)
      | some text =>
        simp only [Option.elim_some, String.toList_append, List.append_assoc]
        exact .fixed rfl (by decide)
    · cases o <;> simp [FunctionTree.lexemes, optionalLexemes, ParamsTree.lexemes, ReturnsTree.lexemes, optionalLeaf]

theorem Block.prints {b : Block} (h : b.WellFormed) :
    Prints Anything BlockTree.lexemes (fun t => t.block.bare) b.print b.bare := by
  have hline : ∀ s ∈ b.statements, Prints Anything (closedLexemes StatementTree.lexemes)
      (fun x : StatementTree × Option (SymbolLeaf .semicolon) => x.1.statement.bare) (indent ++ indent ++ s.print ++ "\n") s.bare := by
    intro s hs
    obtain ⟨t, ht, hholds⟩ := Statement.prints (h.2 s hs)
    refine ⟨(t, none), ht, fun rest _ => ?_⟩
    exact ((((holds_indent _).append (holds_indent _)).append (hholds _ (.fixed rfl (by decide)))).append (holds_feed _)).congr
      (by simp [closedLexemes, optionalLeaf, optionalLexemes])
  obtain ⟨statements, hvs, hall⟩ := exists_trees hline
  refine ⟨⟨if b.entry then some (Leaf.of ()) else none, Leaf.of (), Leaf.of b.name, Leaf.of (), statements, Leaf.of ()⟩, ?_,
    fun rest _ => ?_⟩
  · have hentry : (if b.entry then some (Leaf.of ()) else none : Option (KeywordLeaf .entry)).isSome = b.entry := by
      cases b.entry <;> rfl
    simp only [BlockTree.block, bare, hentry, List.map_map, ← hvs]
    rfl
  · have hword : ∀ r, Holds "block " [.keyword .block] r := fun r => .fixed [.word .block, .blank ' '] rfl rfl
    have hentry : ∀ r, Holds (if b.entry then "entry " else "") (if b.entry then [.keyword .entry] else []) r := fun r => by
      cases b.entry with
      | false => exact .empty
      | true => exact .fixed [.word .entry, .blank ' '] rfl rfl
    refine (((((holds_indent _).append (hentry _)).append (hword _)).append (.name h.1 (apart_bracedLines _))).append
      (holds_bracedLines (holds_lines hall) rest)).congr ?_
    cases b.entry <;> simp [BlockTree.lexemes, optionalLeaf, optionalLexemes]

/-! ## Schemas -/

theorem holds_blankLines {texts : List String} {uss : List (List Token)}
    (h : List.Forall₂ (fun text us => ∀ rest, Holds text us rest) texts uss) (rest : List Char) :
    Holds ("\n".intercalate texts) uss.flatten rest := by
  induction h with
  | nil => rw [String.intercalate_nil]; exact .empty
  | @cons text us texts uss h hs ih =>
    cases hs with
    | nil =>
      rw [String.intercalate_singleton]
      exact (h rest).congr (by simp)
    | cons h' hs =>
      rw [String.intercalate_cons_cons]
      exact (((h _).append (holds_feed _)).append ih).congr (by simp)

/-- Groups of lines with blank lines between those that are not empty. -/
theorem holds_groups (gs : List (List String × List Token)) (h : ∀ g ∈ gs, ∀ rest, Holds (String.join g.1) g.2 rest)
    (rest : List Char) : Holds ("\n".intercalate (((gs.map Prod.fst).filter fun g => !g.isEmpty).map String.join))
      (gs.flatMap Prod.snd) rest := by
  have htexts : ((gs.map Prod.fst).filter fun g => !g.isEmpty).map String.join =
      (gs.filter fun g => !g.1.isEmpty).map fun g => String.join g.1 := by
    rw [List.filter_map, List.map_map]
    rfl
  -- groups without lines have no tokens either
  have htokens : gs.flatMap Prod.snd = ((gs.filter fun g => !g.1.isEmpty).map Prod.snd).flatten := by
    clear htexts
    induction gs with
    | nil => rfl
    | cons g gs ih =>
      obtain ⟨hg, hgs⟩ := List.forall_mem_cons.1 h
      rcases g with ⟨_ | ⟨line, lines⟩, ts⟩
      · obtain rfl := (hg rest).eq_nil
        exact ih hgs
      · exact congrArg (ts ++ ·) (ih hgs)
  rw [htexts, htokens]
  refine holds_blankLines ?_ rest
  rw [List.forall₂_map_left_iff, List.forall₂_map_right_iff, List.forall₂_same]
  exact fun g hg => h g (List.mem_filter.1 hg).1

theorem Transaction.prints {tx : Transaction} (h : tx.WellFormed) :
    Prints Anything TransactionTree.lexemes (fun t => t.transaction.bare) tx.print tx.bare := by
  obtain ⟨hname, hactors, hmessages, hfunctions, hblocks⟩ := h
  obtain ⟨actors, hvactors, hallActors⟩ := exists_trees fun a ha => Actor.prints (hactors a ha)
  obtain ⟨messages, hvmessages, hallMessages⟩ := exists_trees fun m hm => Message.prints (hmessages m hm)
  obtain ⟨functions, hvfunctions, hallFunctions⟩ := exists_trees fun f hf => Function.prints (hfunctions f hf)
  obtain ⟨blocks, hvblocks, hallBlocks⟩ := exists_trees fun b hb => Block.prints (hblocks b hb)
  refine ⟨⟨⟨Leaf.of (), Leaf.of tx.name, tx.description.map Leaf.of, Leaf.of ()⟩,
    actors.map .actor ++ messages.map .message ++ functions.map .function ++ blocks.map .block, Leaf.of ()⟩, ?_,
    fun rest _ => ?_⟩
  · have hdescription : (tx.description.map (Leaf.of : String → StringLeaf)).map (·.value) = tx.description := by
      cases tx.description <;> rfl
    simp only [TransactionTree.transaction, bare, hdescription, List.filterMap_append, List.filterMap_map,
      Function.comp_def, DeclarationTree.actor?, DeclarationTree.message?, DeclarationTree.function?,
      DeclarationTree.block?, List.filterMap_eq_map', List.filterMap_none, List.append_nil, List.nil_append, List.map_map,
      ← hvactors, ← hvmessages, ← hvfunctions, ← hvblocks]
    rfl
  · have hword : ∀ r, Holds "transaction " [.keyword .transaction] r := fun r => .fixed [.word .transaction, .blank ' '] rfl rfl
    have hopen : ∀ r, Holds " \x7b\n" [.symbol .openBrace] r := fun r =>
      .fixed [.blank ' ', .mark .openBrace, .blank '\n'] rfl rfl
    have hclose : Holds "\x7d\n" [.symbol .closeBrace] rest := .fixed [.mark .closeBrace, .blank '\n'] rfl rfl
    have hdescription : ∀ r, Holds (tx.description.elim "" fun text => " " ++ Quoted.literal text)
        (tokensOf (optionalLeaf (tx.description.map (Leaf.of : String → StringLeaf)))) (" \x7b\n".toList ++ r) := by
      intro r
      cases tx.description with
      | none => exact .empty
      | some text =>
        exact (holds_blank _).append (.literal text (.fixed rfl (by decide)))
    have hgroups := fun r => holds_groups [
      (tx.actors.map Actor.print, tokensOf (actors.flatMap ActorTree.lexemes)),
      (tx.messages.map Message.print, tokensOf (messages.flatMap MessageTree.lexemes)),
      (tx.functions.map Function.print, tokensOf (functions.flatMap FunctionTree.lexemes)),
      (tx.blocks.map Block.print, tokensOf (blocks.flatMap BlockTree.lexemes))] (by
        simp only [List.forall_mem_cons]
        exact ⟨holds_lines hallActors, holds_lines hallMessages, holds_lines hallFunctions, holds_lines hallBlocks,
          fun _ h => absurd h List.not_mem_nil⟩) r
    refine ((((((hword _).append (.name hname ?_)).append (hdescription _)).append (hopen _)).append (hgroups _)).append
      hclose).congr ?_
    · cases tx.description with
      | none =>
        rw [Option.elim_none, String.toList_empty, List.nil_append]
        exact .fixed rfl (by decide)
      | some text =>
        simp only [Option.elim_some, String.toList_append, List.append_assoc]
        exact .fixed rfl (by decide)
    · simp [TransactionTree.lexemes, HeaderTree.lexemes, DeclarationTree.lexemes, List.flatMap_map]

theorem Schema.prints {s : Schema} (h : s.WellFormed) :
    Prints Anything SchemaTree.lexemes (fun t => t.schema.bare) s.print s.bare := by
  obtain ⟨hne, htxs⟩ := h
  obtain ⟨ts, hvs, hall⟩ := exists_trees fun tx htx => Transaction.prints (htxs tx htx)
  have hholds : ∀ rest, Holds s.print (tokensOf (ts.flatMap TransactionTree.lexemes)) rest := fun rest => by
    have htexts : List.Forall₂ (fun text us => ∀ rest, Holds text us rest) (s.transactions.map Transaction.print)
        (ts.map fun t => tokensOf t.lexemes) := by
      rw [List.forall₂_map_left_iff, List.forall₂_map_right_iff]
      exact hall.imp fun _ _ h rest => h rest trivial
    refine (holds_blankLines htexts rest).congr ?_
    rw [← List.flatMap_def, tokensOf, List.map_flatMap]
    rfl
  cases ts with
  | nil => exact absurd (List.map_eq_nil_iff.1 hvs.symm) hne
  | cons first more =>
    refine ⟨⟨first, more⟩, ?_, fun rest _ => hholds rest⟩
    simp only [SchemaTree.schema, SchemaTree.transactions, bare, List.map_map]
    exact congrArg Schema.mk hvs

/-! ## The round trip -/

/-- A text that holds the tokens of a derivation is parsed to its value, up to spans. -/
theorem parse_of_holds {t : SchemaTree} {source : String} (h : Holds source (tokensOf t.lexemes) []) :
    ∃ s, parse source = .ok s ∧ s.bare = t.schema.bare := by
  obtain ⟨xs, htext, htokens, hcut⟩ := h
  have htok := tokenize_ok_iff.2 ⟨xs, hcut, htext, rfl⟩
  have hsame : tokensOf t.lexemes = tokensOf (placed .first xs) := by rw [← htokens, ← tokens_placed]; rfl
  obtain ⟨t', ht', hbare⟩ := Grammar.derivation_of_tokens hsame
  exact ⟨t'.schema, parse_ok_iff.2 ⟨_, htok, parseTokens_ok_iff.2 ⟨t', ht', rfl⟩⟩, hbare⟩

/-- The tokens read from a text are tokens that a text can hold. -/
theorem spelled_of_tokenize {source : String} {ls : List Lexeme} (h : tokenize source = .ok ls) : Spelled ls := by
  obtain ⟨xs, hcut, -, hxs⟩ := tokenize_ok_iff.1 h
  intro l hl
  apply spellable_of_cut hcut
  rw [← tokens_placed .first, hxs]
  exact List.mem_map_of_mem hl

theorem wellFormed_of_parse {source : String} {s : Schema} (h : parse source = .ok s) : s.WellFormed := by
  obtain ⟨t, htok, rfl⟩ := parse_ok_iff_derivation.1 h
  exact t.wellFormed (spelled_of_tokenize htok)

theorem parse_print {s : Schema} (h : s.WellFormed) : ∃ s', parse s.print = .ok s' ∧ s'.bare = s.bare := by
  obtain ⟨t, ht, hholds⟩ := Schema.prints h
  obtain ⟨s', hs', hbare⟩ := parse_of_holds (hholds [] trivial)
  exact ⟨s', hs', hbare.trans ht⟩

/-- Canonical printing loses nothing exactly on the schemas that a text can express, and what is
parsed is one of these: printed and parsed again it is the same up to spans, and is printed the
same. -/
theorem print_lossless_iff_wellFormed :
    (∀ s : Schema, (∃ s', parse s.print = .ok s' ∧ s'.bare = s.bare) ↔ s.WellFormed) ∧
    ∀ source s, parse source = .ok s →
      s.WellFormed ∧ ∃ s', parse s.print = .ok s' ∧ s'.bare = s.bare ∧ s'.print = s.print := by
  refine ⟨fun s => ⟨?_, parse_print⟩, fun source s h => ?_⟩
  · -- what was parsed is well-formed, and `s` is the same up to spans
    rintro ⟨s', hs', hbare⟩
    rw [← s.wellFormed_bare, ← hbare, s'.wellFormed_bare]
    exact wellFormed_of_parse hs'
  · have hs := wellFormed_of_parse h
    obtain ⟨s', hs', hbare⟩ := parse_print hs
    refine ⟨hs, s', hs', hbare, ?_⟩
    rw [← s'.print_bare, hbare, s.print_bare]

/-- A block that goes to itself when `!(true && (x.y || 1 == 2))`. -/
def guardedLoop : Schema :=
  ⟨[⟨"T", none, [], [], [⟨"A", true, [⟨.goto ⟨"A", .nowhere⟩, some (.not (.binary .and (.boolean true)
    (.binary .or (.path ["x", "y"]) (.binary .equal (.integer 1) (.integer 2))))), .nowhere⟩], .nowhere⟩], [], .nowhere⟩]⟩

theorem print_lossless_guardedLoop : ∃ s, parse guardedLoop.print = .ok s ∧ s.bare = guardedLoop.bare ∧ s.WellFormed := by
  have hwf : guardedLoop.WellFormed := by
    simp [guardedLoop, Schema.WellFormed, Transaction.WellFormed, Block.WellFormed, Statement.WellFormed, Action.WellFormed,
      Expr.WellFormed]
    decide
  obtain ⟨s, hs, hbare⟩ := (print_lossless_iff_wellFormed.1 guardedLoop).2 hwf
  exact ⟨s, hs, hbare, (print_lossless_iff_wellFormed.2 _ _ hs).1⟩

end Parley
