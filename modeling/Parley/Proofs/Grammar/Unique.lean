/-
No sentence has two derivations. Where two derivations of a sentence could part, between two of
their subtrees, both cuts are where the parser of the first subtree stops; so they are the same
cut, and the subtrees agree by induction.
-/
import Parley.Proofs.Grammar.Complete

namespace Parley

/-! ## Leaves -/

theorem Leaf.eq_of_lexeme {α : Type} {kind : α → Token} (hk : ∀ a b, kind a = kind b → a = b) {l m : Leaf kind} :
    l.lexeme = m.lexeme ↔ l = m := by
  constructor
  · intro h
    rcases l with ⟨a, l, hl⟩
    rcases m with ⟨b, m, hm⟩
    obtain rfl : l = m := h
    obtain rfl : a = b := hk a b (hl.symm.trans hm)
    rfl
  · rintro rfl; rfl

@[simp] theorem KeywordLeaf.lexeme_inj {word : Keyword} {l m : KeywordLeaf word} : l.lexeme = m.lexeme ↔ l = m :=
  Leaf.eq_of_lexeme fun _ _ _ => rfl

@[simp] theorem SymbolLeaf.lexeme_inj {mark : Symbol} {l m : SymbolLeaf mark} : l.lexeme = m.lexeme ↔ l = m :=
  Leaf.eq_of_lexeme fun _ _ _ => rfl

@[simp] theorem NameLeaf.lexeme_inj {l m : NameLeaf} : l.lexeme = m.lexeme ↔ l = m :=
  Leaf.eq_of_lexeme fun _ _ => Token.name.inj

@[simp] theorem StringLeaf.lexeme_inj {l m : StringLeaf} : l.lexeme = m.lexeme ↔ l = m :=
  Leaf.eq_of_lexeme fun _ _ => Token.string.inj

@[simp] theorem IntegerLeaf.lexeme_inj {l m : IntegerLeaf} : l.lexeme = m.lexeme ↔ l = m :=
  Leaf.eq_of_lexeme fun _ _ => Token.integer.inj

@[simp] theorem ComparisonLeaf.lexeme_inj {l m : ComparisonLeaf} : l.lexeme = m.lexeme ↔ l = m :=
  Leaf.eq_of_lexeme fun a b h => by cases a <;> cases b <;> first | rfl | cases h

namespace Grammar

open Parley.Parser

variable {τ α : Type} {u u' : List Lexeme}

/-! ## Cuts -/

/-- Two sentences that one parser reads, each up to its end, end at the same place. -/
theorem same_cut {p : Parser α} {w w' : List Lexeme} {a a' : α} (heq : w ++ u = w' ++ u')
    (h : (p (w ++ u)).result = some (a, u)) (h' : (p (w' ++ u')).result = some (a', u')) : w = w' ∧ u = u' := by
  rw [heq, h', Option.some.injEq, Prod.mk.injEq] at h
  obtain ⟨-, rfl⟩ := h
  exact ⟨List.append_cancel_right heq, rfl⟩

/-- Sentences that can be told from what follows them. -/
def CutOff (f : τ → List Lexeme) (F : List Lexeme → Prop) : Prop :=
  ∀ t t' u u', F u → F u' → f t ++ u = f t' ++ u' → f t = f t' ∧ u = u'

theorem CutOff.of_complete {p : Parser α} {f : τ → List Lexeme} {v : τ → α} {F : List Lexeme → Prop}
    (h : ∀ t u, F u → (p (f t ++ u)).result = some (v t, u)) : CutOff f F :=
  fun t t' u u' hus hus' heq => same_cut heq (h t u hus) (h t' u' hus')

section Lists

variable {f : τ → List Lexeme} {F : List Lexeme → Prop}

theorem optional_injective (hne : ∀ t, f t ≠ []) (hinj : ∀ t t', f t = f t' → t = t') :
    ∀ o o' : Option τ, optionalLexemes f o = optionalLexemes f o' → o = o'
  | none, none, _ => rfl
  | some t, some t', h => by rw [hinj t t' h]
  | none, some t', h => absurd h.symm (hne t')
  | some t, none, h => absurd h (hne t)

theorem optionalLeaf_injective {kind : α → Token} (hinj : ∀ l m : Leaf kind, l.lexeme = m.lexeme → l = m) :
    ∀ o o' : Option (Leaf kind), optionalLeaf o = optionalLeaf o' → o = o' :=
  optional_injective (fun _ => List.cons_ne_nil _ _) fun l m h => hinj l m (List.cons.inj h).1

/-- A list of sentences is determined if each can be cut off from the next. -/
theorem flatMap_injective (hne : ∀ t, f t ≠ []) (hinj : ∀ t t', f t = f t' → t = t') (hcut : CutOff f F)
    (hfine : ∀ t u, F (f t ++ u)) (hnil : F []) :
    ∀ ts ts' : List τ, ts.flatMap f = ts'.flatMap f → ts = ts'
  | [], [], _ => rfl
  | [], t' :: ts', h => by simp [hne t'] at h
  | t :: ts, [], h => by simp [hne t] at h
  | t :: ts, t' :: ts', h => by
    have hall : ∀ ts : List τ, F (ts.flatMap f) := by
      rintro (_ | ⟨t, ts⟩)
      · exact hnil
      · exact hfine t _
    obtain ⟨ht, hts⟩ := hcut t t' _ _ (hall ts) (hall ts') h
    rw [hinj t t' ht, flatMap_injective hne hinj hcut hfine hnil ts ts' hts]

/-- Items after a mark each. -/
theorem pairs_injective {mark : Symbol} (hinj : ∀ t t', f t = f t' → t = t') (hcut : CutOff f F)
    (hfine : ∀ u, upcoming u = some (.symbol mark) → F u) (hnil : F []) :
    ∀ xs ys : List (SymbolLeaf mark × τ),
      (xs.flatMap fun x => x.1.lexeme :: f x.2) = (ys.flatMap fun x => x.1.lexeme :: f x.2) → xs = ys := by
  refine flatMap_injective (F := F) (fun _ => List.cons_ne_nil _ _) ?_ ?_ ?_ hnil
  · rintro ⟨m, t⟩ ⟨m', t'⟩ h
    simp only [List.cons.injEq, SymbolLeaf.lexeme_inj] at h
    rw [h.1, hinj t t' h.2]
  · rintro ⟨m, t⟩ ⟨m', t'⟩ u u' hus hus' h
    simp only [List.cons_append, List.cons.injEq, SymbolLeaf.lexeme_inj] at h
    obtain ⟨ht, hrest⟩ := hcut t t' u u' hus hus' h.2
    exact ⟨by simp only [h.1, ht], hrest⟩
  · rintro ⟨m, t⟩ u
    exact hfine _ (congrArg some m.holds)

theorem separated_injective (hinj : ∀ t t', f t = f t' → t = t') (hcut : CutOff f F)
    (hfine : ∀ u, upcoming u = some (.symbol .comma) → F u) (hnil : F []) (s s' : Separated τ)
    (h : s.lexemes f = s'.lexemes f) : s = s' := by
  have hall : ∀ xs : List (SymbolLeaf .comma × τ), F (xs.flatMap fun x => x.1.lexeme :: f x.2) := by
    rintro (_ | ⟨x, xs⟩)
    · exact hnil
    · exact hfine _ (congrArg some x.1.holds)
  obtain ⟨hfirst, hmore⟩ := hcut _ _ _ _ (hall s.more) (hall s'.more) h
  rcases s with ⟨t, xs⟩
  rcases s' with ⟨t', ys⟩
  rw [hinj t t' hfirst, pairs_injective hinj hcut hfine hnil xs ys hmore]

theorem closed_injective {mark : Symbol} (hinj : ∀ t t', f t = f t' → t = t') (hcut : CutOff f F)
    (hfine : ∀ u, upcoming u = some (.symbol mark) → F u) (hnil : F [])
    (x y : τ × Option (SymbolLeaf mark)) (h : closedLexemes f x = closedLexemes f y) : x = y := by
  have hall : ∀ m : Option (SymbolLeaf mark), F (optionalLeaf m) := by
    rintro (_ | m)
    · exact hnil
    · exact hfine _ (congrArg some m.holds)
  obtain ⟨ht, hm⟩ := hcut x.1 y.1 _ _ (hall x.2) (hall y.2) h
  exact Prod.ext (hinj _ _ ht) (optionalLeaf_injective (fun _ _ => SymbolLeaf.lexeme_inj.1) _ _ hm)

end Lists

/-! ## Types -/

theorem cutOff_type : CutOff TypeTree.lexemes fun u => upcoming u ≠ some (.symbol .less) :=
  .of_complete fun t _ => complete_type t

/-- No bracket opens where further arguments may stand. -/
theorem upcoming_types (ts : TypeTrees) (h : upcoming u ≠ some (.symbol .less)) :
    upcoming (ts.lexemes ++ u) ≠ some (.symbol .less) := by
  cases ts with
  | none => exact h
  | more comma type rest => simp [TypeTrees.lexemes, comma.holds]

mutual

theorem type_injective : ∀ t t' : TypeTree, t.lexemes = t'.lexemes → t = t'
  | .plain name, .plain name', h => by
    simp only [TypeTree.lexemes, List.cons.injEq, NameLeaf.lexeme_inj, and_true] at h
    rw [h]
  | .plain name, .applied .., h => by simp [TypeTree.lexemes] at h
  | .applied .., .plain name', h => by simp [TypeTree.lexemes] at h
  | .applied name left first more right, .applied name' left' first' more' right', h => by
    simp only [TypeTree.lexemes, List.cons.injEq, NameLeaf.lexeme_inj, SymbolLeaf.lexeme_inj] at h
    obtain ⟨rfl, rfl, h⟩ := h
    obtain ⟨hfirst, h⟩ := cutOff_type first first' _ _ (upcoming_types more (by simp [right.holds]))
      (upcoming_types more' (by simp [right'.holds])) h
    -- both lists end with the one closing bracket
    obtain ⟨hmore, hright⟩ := List.append_inj' h rfl
    simp only [List.cons.injEq, SymbolLeaf.lexeme_inj, and_true] at hright
    rw [type_injective first first' hfirst, types_injective more more' hmore, hright]

theorem types_injective : ∀ ts ts' : TypeTrees, ts.lexemes = ts'.lexemes → ts = ts'
  | .none, .none, _ => rfl
  | .none, .more .., h => by simp [TypeTrees.lexemes] at h
  | .more .., .none, h => by simp [TypeTrees.lexemes] at h
  | .more comma type rest, .more comma' type' rest', h => by
    simp only [TypeTrees.lexemes, List.cons.injEq, SymbolLeaf.lexeme_inj] at h
    obtain ⟨rfl, h⟩ := h
    have hend : ∀ ts : TypeTrees, upcoming ts.lexemes ≠ some (.symbol .less) := fun ts => by
      simpa using upcoming_types ts (u := []) nofun
    obtain ⟨htype, hrest⟩ := cutOff_type type type' _ _ (hend rest) (hend rest') h
    rw [type_injective type type' htype, types_injective rest rest' hrest]

end

/-! ## Expressions -/

theorem cutOff_operand : CutOff OperandTree.lexemes fun u => tightness u < 4 := .of_complete complete_operand

theorem cutOff_negation : CutOff UnaryTree.lexemes fun u => tightness u < 3 := .of_complete complete_negation

theorem cutOff_conjunction : CutOff AndTree.lexemes fun u => tightness u < 2 := .of_complete complete_conjunction

theorem cutOff_expression : CutOff OrTree.lexemes fun u => tightness u < 1 :=
  .of_complete fun t _ => complete_expression t

theorem tightness_comparison (op : ComparisonLeaf) (u : List Lexeme) : tightness (op.lexeme :: u) < 4 := by
  rw [tightness_cons, op.holds]
  cases op.value <;> decide

theorem tightness_andTail_end (t : AndTail) : tightness t.lexemes < 3 := by
  simpa using tightness_andTail (u := []) t Nat.two_pos

theorem tightness_orTail_end (t : OrTail) : tightness t.lexemes < 2 := by
  simpa using tightness_orTail (u := []) t Nat.one_pos

theorem path_injective : ∀ xs ys : List (SymbolLeaf .dot × NameLeaf),
    (xs.flatMap fun x => [x.1.lexeme, x.2.lexeme]) = (ys.flatMap fun x => [x.1.lexeme, x.2.lexeme]) → xs = ys :=
  pairs_injective (f := fun n : NameLeaf => [n.lexeme])  (by simp)
    (fun _ _ _ _ _ _ h => by simpa using h) (fun _ _ => trivial) trivial

theorem operand_ne_compared (t left : OperandTree) (op : ComparisonLeaf) (right : OperandTree) :
    t.lexemes ≠ left.lexemes ++ op.lexeme :: right.lexemes := by
  intro h
  have h := cutOff_operand t left [] _ (by decide) (tightness_comparison op right.lexemes) (by rw [List.append_nil, h])
  exact List.cons_ne_nil _ _ h.2.symm

theorem not_ne_cmp (mark : SymbolLeaf .not) (t : UnaryTree) (t' : CmpTree) : mark.lexeme :: t.lexemes ≠ t'.lexemes := by
  intro h
  have hup := upcoming_cmp t' [] (show Symbol.not ≠ .openParen by decide)
  rw [List.append_nil, ← h, upcoming_cons, mark.holds] at hup
  exact hup rfl

mutual

theorem operand_injective : ∀ t t' : OperandTree, t.lexemes = t'.lexemes → t = t'
  -- the first lexeme tells the productions apart
  | .path head tail, t', h | .integer leaf, t', h | .string leaf, t', h | .yes leaf, t', h | .no leaf, t', h => by
    have hup := congrArg upcoming h
    cases t' <;> simp [OperandTree.lexemes, Leaf.holds] at hup h ⊢
    all_goals first | exact h | exact ⟨h.1, path_injective _ _ h.2⟩
  | .parenthesized left inner right, t', h => by
    have hup := congrArg upcoming h
    cases t' with
    | parenthesized left' inner' right' =>
      simp only [OperandTree.lexemes, List.cons.injEq, SymbolLeaf.lexeme_inj] at h
      obtain ⟨rfl, h⟩ := h
      obtain ⟨hinner, hright⟩ := List.append_inj' h rfl
      simp only [List.cons.injEq, SymbolLeaf.lexeme_inj, and_true] at hright
      rw [expression_injective inner inner' hinner, hright]
    | _ => simp [OperandTree.lexemes, Leaf.holds] at hup

theorem cmp_injective : ∀ t t' : CmpTree, t.lexemes = t'.lexemes → t = t'
  | .operand only, .operand only', h => by rw [operand_injective only only' h]
  | .operand only, .compared left op right, h => absurd h (operand_ne_compared only left op right)
  | .compared left op right, .operand only, h => absurd h.symm (operand_ne_compared only left op right)
  | .compared left op right, .compared left' op' right', h => by
    obtain ⟨hleft, h⟩ := cutOff_operand _ _ _ _ (tightness_comparison op _) (tightness_comparison op' _) h
    simp only [List.cons.injEq, ComparisonLeaf.lexeme_inj] at h
    rw [operand_injective left left' hleft, h.1, operand_injective right right' h.2]

theorem unary_injective : ∀ t t' : UnaryTree, t.lexemes = t'.lexemes → t = t'
  | .not mark inner, .not mark' inner', h => by
    simp only [UnaryTree.lexemes, List.cons.injEq, SymbolLeaf.lexeme_inj] at h
    rw [h.1, unary_injective inner inner' h.2]
  | .not mark inner, .cmp inner', h => absurd h (not_ne_cmp mark inner inner')
  | .cmp inner, .not mark' inner', h => absurd h.symm (not_ne_cmp mark' inner' inner)
  | .cmp inner, .cmp inner', h => by rw [cmp_injective inner inner' h]

theorem and_injective : ∀ t t' : AndTree, t.lexemes = t'.lexemes → t = t'
  | .mk head tail, .mk head' tail', h => by
    obtain ⟨hhead, htail⟩ := cutOff_negation head head' _ _ (tightness_andTail_end tail) (tightness_andTail_end tail') h
    rw [unary_injective head head' hhead, andTail_injective tail tail' htail]

theorem andTail_injective : ∀ t t' : AndTail, t.lexemes = t'.lexemes → t = t'
  | .none, .none, _ => rfl
  | .none, .more .., h => by simp [AndTail.lexemes] at h
  | .more .., .none, h => by simp [AndTail.lexemes] at h
  | .more mark item rest, .more mark' item' rest', h => by
    simp only [AndTail.lexemes, List.cons.injEq, SymbolLeaf.lexeme_inj] at h
    obtain ⟨rfl, h⟩ := h
    obtain ⟨hitem, hrest⟩ := cutOff_negation item item' _ _ (tightness_andTail_end rest) (tightness_andTail_end rest') h
    rw [unary_injective item item' hitem, andTail_injective rest rest' hrest]

theorem expression_injective : ∀ t t' : OrTree, t.lexemes = t'.lexemes → t = t'
  | .mk head tail, .mk head' tail', h => by
    obtain ⟨hhead, htail⟩ := cutOff_conjunction head head' _ _ (tightness_orTail_end tail) (tightness_orTail_end tail') h
    rw [and_injective head head' hhead, orTail_injective tail tail' htail]

theorem orTail_injective : ∀ t t' : OrTail, t.lexemes = t'.lexemes → t = t'
  | .none, .none, _ => rfl
  | .none, .more .., h => by simp [OrTail.lexemes] at h
  | .more .., .none, h => by simp [OrTail.lexemes] at h
  | .more mark item rest, .more mark' item' rest', h => by
    simp only [OrTail.lexemes, List.cons.injEq, SymbolLeaf.lexeme_inj] at h
    obtain ⟨rfl, h⟩ := h
    obtain ⟨hitem, hrest⟩ := cutOff_conjunction item item' _ _ (tightness_orTail_end rest) (tightness_orTail_end rest') h
    rw [and_injective item item' hitem, orTail_injective rest rest' hrest]

end

/-! ## Statements -/

theorem operand_ne_nil (t : OperandTree) : t.lexemes ≠ [] := by
  cases t <;> exact List.cons_ne_nil _ _

theorem expression_ne_nil (t : OrTree) : t.lexemes ≠ [] := by
  rcases t with ⟨⟨mark | (only | ⟨left, op, right⟩), tail⟩, more⟩
  · exact List.cons_ne_nil _ _
  · exact List.append_ne_nil_of_left_ne_nil (List.append_ne_nil_of_left_ne_nil (operand_ne_nil only) _) _
  · exact List.append_ne_nil_of_left_ne_nil (List.append_ne_nil_of_left_ne_nil
      (List.append_ne_nil_of_left_ne_nil (operand_ne_nil left) _) _) _

theorem action_injective (t t' : ActionTree) (h : t.lexemes = t'.lexemes) : t = t' := by
  have hup := congrArg upcoming h
  cases t <;> cases t' <;> simp [ActionTree.lexemes, Leaf.holds] at hup h ⊢
  · exact h
  · obtain ⟨hword, htarget, hleft, hargs, hright⟩ := h
    refine ⟨hword, htarget, hleft, optional_injective ?_ ?_ _ _ hargs, hright⟩
    · intro s
      exact List.append_ne_nil_of_left_ne_nil (expression_ne_nil s.first) _
    · exact separated_injective expression_injective cutOff_expression
        (fun u h => by rw [tightness_of_upcoming h]; decide) (by decide)
  · exact h

theorem guard_injective (t t' : GuardTree) (h : t.lexemes = t'.lexemes) : t = t' := by
  rcases t with ⟨word, condition⟩
  rcases t' with ⟨word', condition'⟩
  simp only [GuardTree.lexemes, List.cons.injEq, KeywordLeaf.lexeme_inj] at h
  rw [h.1, expression_injective _ _ h.2]

theorem cutOff_action : CutOff ActionTree.lexemes fun _ => True := .of_complete fun t u _ => complete_action t u

theorem statement_injective (t t' : StatementTree) (h : t.lexemes = t'.lexemes) : t = t' := by
  obtain ⟨haction, hguard⟩ := cutOff_action _ _ _ _ trivial trivial h
  rcases t with ⟨action, guard⟩
  rcases t' with ⟨action', guard'⟩
  obtain rfl := action_injective action action' haction
  obtain rfl := optional_injective (fun _ => List.cons_ne_nil _ _) guard_injective guard guard' hguard
  rfl

/-! ## Declarations -/

theorem binding_injective (t t' : BindingTree) (h : t.lexemes = t'.lexemes) : t = t' := by
  rcases t with ⟨name, colon, type⟩
  rcases t' with ⟨name', colon', type'⟩
  simp only [BindingTree.lexemes, List.cons.injEq, NameLeaf.lexeme_inj, SymbolLeaf.lexeme_inj] at h
  rw [h.1, h.2.1, type_injective _ _ h.2.2]

theorem cutOff_binding : CutOff BindingTree.lexemes fun u => upcoming u ≠ some (.symbol .less) :=
  .of_complete fun t _ => complete_field t

theorem role_injective (t t' : RoleTree) (h : t.lexemes = t'.lexemes) : t = t' := by
  rcases t with ⟨word, colon, value, comma⟩
  rcases t' with ⟨word', colon', value', comma'⟩
  simp only [RoleTree.lexemes, List.cons.injEq, KeywordLeaf.lexeme_inj, SymbolLeaf.lexeme_inj] at h
  obtain ⟨rfl, rfl, hvalue, hcomma⟩ := h
  obtain rfl : value = value' := by
    have htoken := congrArg Lexeme.token hvalue
    cases value <;> cases value' <;> simp [RoleValue.lexeme, Leaf.holds] at hvalue htoken ⊢ <;> exact hvalue
  rw [optionalLeaf_injective (fun _ _ => SymbolLeaf.lexeme_inj.1) _ _ hcomma]

theorem actor_injective (t t' : ActorTree) (h : t.lexemes = t'.lexemes) : t = t' := by
  rcases t with ⟨word, name, left, role, right⟩
  rcases t' with ⟨word', name', left', role', right'⟩
  simp only [ActorTree.lexemes, List.cons.injEq, KeywordLeaf.lexeme_inj, NameLeaf.lexeme_inj, SymbolLeaf.lexeme_inj] at h
  obtain ⟨rfl, rfl, rfl, h⟩ := h
  obtain ⟨hrole, hright⟩ := List.append_inj' h rfl
  simp only [List.cons.injEq, SymbolLeaf.lexeme_inj, and_true] at hright
  rw [optional_injective (fun _ => List.cons_ne_nil _ _) role_injective _ _ hrole, hright]

theorem message_injective (t t' : MessageTree) (h : t.lexemes = t'.lexemes) : t = t' := by
  rcases t with ⟨word, name, sender, arrow, receiver, left, fields, right⟩
  rcases t' with ⟨word', name', sender', arrow', receiver', left', fields', right'⟩
  simp only [MessageTree.lexemes, List.cons.injEq, KeywordLeaf.lexeme_inj, NameLeaf.lexeme_inj,
    SymbolLeaf.lexeme_inj] at h
  obtain ⟨rfl, rfl, rfl, rfl, rfl, rfl, h⟩ := h
  obtain ⟨hfields, hright⟩ := List.append_inj' h rfl
  simp only [List.cons.injEq, SymbolLeaf.lexeme_inj, and_true] at hright
  obtain rfl := flatMap_injective (fun _ => List.append_ne_nil_of_left_ne_nil (List.cons_ne_nil _ _) _)
    (closed_injective binding_injective cutOff_binding (by simp +contextual) fun h => by cases h)
    (.of_complete complete_closedField) endsField_field ⟨fun h => (by cases h), fun h => by cases h⟩ fields fields' hfields
  rw [hright]

theorem params_injective (t t' : ParamsTree) (h : t.lexemes = t'.lexemes) : t = t' := by
  -- a comma does not tell a trailing one from a separator, so the cut is found by reading on
  have hread : ∀ t : ParamsTree, (sepBy1 param (symbol .comma) t.lexemes).result =
      some (t.params.values BindingTree.param, optionalLeaf t.comma) := fun t => by
    have hstop := stops_paramList (u := []) t.comma nofun nofun
    rw [List.append_nil] at hstop
    exact complete_paramList t.params (by cases t.comma <;> simp [optionalLeaf, optionalLexemes, upcoming, Leaf.holds]) hstop
  obtain ⟨hparams, hcomma⟩ := same_cut h (hread t) (hread t')
  rcases t with ⟨params, comma⟩
  rcases t' with ⟨params', comma'⟩
  obtain rfl := separated_injective binding_injective cutOff_binding (by simp +contextual) nofun params params' hparams
  obtain rfl := optionalLeaf_injective (fun _ _ => SymbolLeaf.lexeme_inj.1) comma comma' hcomma
  rfl

theorem returns_injective (t t' : ReturnsTree) (h : t.lexemes = t'.lexemes) : t = t' := by
  rcases t with ⟨arrow, type⟩
  rcases t' with ⟨arrow', type'⟩
  simp only [ReturnsTree.lexemes, List.cons.injEq, SymbolLeaf.lexeme_inj] at h
  rw [h.1, type_injective _ _ h.2]

theorem function_injective (t t' : FunctionTree) (h : t.lexemes = t'.lexemes) : t = t' := by
  rcases t with ⟨word, name, left, params, right, returns, openBrace, description, closeBrace⟩
  rcases t' with ⟨word', name', left', params', right', returns', openBrace', description', closeBrace'⟩
  simp only [FunctionTree.lexemes, List.cons.injEq, KeywordLeaf.lexeme_inj, NameLeaf.lexeme_inj,
    SymbolLeaf.lexeme_inj] at h
  obtain ⟨rfl, rfl, rfl, h⟩ := h
  -- the parsers find the ends of the parameters and of the result, which may both be missing
  obtain ⟨hparams, h₁⟩ := same_cut h (complete_params params right _) (complete_params params' right' _)
  simp only [List.cons.injEq, SymbolLeaf.lexeme_inj] at h₁
  obtain ⟨rfl, h₁⟩ := h₁
  obtain ⟨hreturns, h₂⟩ := same_cut h₁ (complete_returns returns openBrace _) (complete_returns returns' openBrace' _)
  simp only [List.cons.injEq, SymbolLeaf.lexeme_inj] at h₂
  obtain ⟨rfl, h₂⟩ := h₂
  obtain ⟨hdescription, hright⟩ := List.append_inj' h₂ rfl
  simp only [List.cons.injEq, SymbolLeaf.lexeme_inj, and_true] at hright
  obtain rfl := hright
  obtain rfl := optional_injective (fun _ => List.append_ne_nil_of_left_ne_nil (List.cons_ne_nil _ _) _)
    params_injective params params' hparams
  obtain rfl := optional_injective (fun _ => List.cons_ne_nil _ _) returns_injective returns returns' hreturns
  obtain rfl := optionalLeaf_injective (fun _ _ => StringLeaf.lexeme_inj.1) description description' hdescription
  rfl

/-- A block that has the keyword of entry blocks is no other block. -/
theorem entry_injective {word word' : KeywordLeaf .block} {entry entry' : Option (KeywordLeaf .entry)}
    {u u' : List Lexeme} (h : optionalLeaf entry ++ word.lexeme :: u = optionalLeaf entry' ++ word'.lexeme :: u') :
    entry = entry' ∧ word = word' ∧ u = u' := by
  have hup := congrArg upcoming h
  cases entry <;> cases entry' <;> simp [optionalLeaf, optionalLexemes, Leaf.holds] at h hup ⊢ <;> exact h

theorem block_injective (t t' : BlockTree) (h : t.lexemes = t'.lexemes) : t = t' := by
  rcases t with ⟨entry, word, name, left, statements, right⟩
  rcases t' with ⟨entry', word', name', left', statements', right'⟩
  obtain ⟨rfl, rfl, h₁⟩ := entry_injective h
  simp only [List.cons.injEq, NameLeaf.lexeme_inj, SymbolLeaf.lexeme_inj] at h₁
  obtain ⟨rfl, rfl, h₁⟩ := h₁
  obtain ⟨hstatements, hright⟩ := List.append_inj' h₁ rfl
  simp only [List.cons.injEq, SymbolLeaf.lexeme_inj, and_true] at hright
  have hfine : ∀ u, upcoming u = some (.symbol .semicolon) → endsStatement u := fun u h =>
    ⟨by rw [tightness_of_upcoming h]; decide, by simp [h]⟩
  obtain rfl := flatMap_injective (fun x => List.append_ne_nil_of_left_ne_nil x.1.lexemes_ne_nil _)
    (closed_injective statement_injective (.of_complete fun t _ => complete_statement t) hfine ⟨by decide, nofun⟩)
    (.of_complete complete_closedStatement) endsClosedStatement_statement ⟨⟨by decide, nofun⟩, nofun⟩
    statements statements' hstatements
  rw [hright]

theorem declaration_injective (t t' : DeclarationTree) (h : t.lexemes = t'.lexemes) : t = t' := by
  -- the values read off the trees have the same category
  have hread := complete_declaration t []
  rw [List.append_nil, h, ← List.append_nil t'.lexemes, complete_declaration, Option.some.injEq, Prod.mk.injEq] at hread
  have hvalue := hread.1
  cases t <;> cases t' <;> simp [DeclarationTree.declaration] at hvalue
  · rw [actor_injective _ _ h]
  · rw [message_injective _ _ h]
  · rw [function_injective _ _ h]
  · rw [block_injective _ _ h]

/-! ## Transactions -/

theorem header_injective (t t' : HeaderTree) (h : t.lexemes = t'.lexemes) : t = t' := by
  rcases t with ⟨word, name, description, left⟩
  rcases t' with ⟨word', name', description', left'⟩
  simp only [HeaderTree.lexemes, List.cons.injEq, KeywordLeaf.lexeme_inj, NameLeaf.lexeme_inj] at h
  obtain ⟨rfl, rfl, h⟩ := h
  obtain ⟨hdescription, hleft⟩ := List.append_inj' h rfl
  simp only [List.cons.injEq, SymbolLeaf.lexeme_inj, and_true] at hleft
  rw [optionalLeaf_injective (fun _ _ => StringLeaf.lexeme_inj.1) _ _ hdescription, hleft]

theorem transaction_injective (t t' : TransactionTree) (h : t.lexemes = t'.lexemes) : t = t' := by
  have hcut : CutOff DeclarationTree.lexemes fun _ => True := .of_complete fun t u _ => complete_declaration t u
  rcases t with ⟨header, declarations, right⟩
  rcases t' with ⟨header', declarations', right'⟩
  obtain ⟨hheader, h⟩ := same_cut h (complete_header header _) (complete_header header' _)
  obtain ⟨hdeclarations, hright⟩ := List.append_inj' h rfl
  simp only [List.cons.injEq, SymbolLeaf.lexeme_inj, and_true] at hright
  obtain rfl := header_injective header header' hheader
  obtain rfl := flatMap_injective DeclarationTree.lexemes_ne_nil declaration_injective hcut (fun _ _ => trivial) trivial
    declarations declarations' hdeclarations
  rw [hright]

/-- A list of lexemes has at most one derivation. -/
theorem schema_injective (t t' : SchemaTree) (h : t.lexemes = t'.lexemes) : t = t' := by
  have hcut : CutOff TransactionTree.lexemes fun _ => True := .of_complete fun t u _ => complete_transaction t u
  have htransactions := flatMap_injective TransactionTree.lexemes_ne_nil transaction_injective hcut
    (fun _ _ => trivial) trivial _ _ h
  rcases t with ⟨first, more⟩
  rcases t' with ⟨first', more'⟩
  obtain ⟨rfl, rfl⟩ := List.cons.inj htransactions
  rfl

end Grammar

end Parley
