/-
The parsers of the grammar see only tokens: whether lexemes are a schema depends on their tokens,
and so does the schema up to its spans.
-/
import Parley.Proofs.Grammar.Sound
import Parley.Proofs.Parser.Blind

namespace Parley.Grammar

open Parley.Parser

/-! ## Lists and optional parts -/

section Lists

variable {α γ : Type} {p : Parser α} {e : α → γ}

theorem blind_many (h : Blind (Same e) p) : Blind (Same (List.map e)) (many p) := by
  refine h.many.mono fun as bs hab => ?_
  induction hab with
  | nil => rfl
  | cons h _ ih => rw [Same, List.map_cons, List.map_cons, h, ih]

theorem blind_optional (h : Blind (Same e) p) : Blind (Same (Option.map e)) (optional p) := by
  refine h.optional.mono fun a b hab => ?_
  cases hab with
  | none => rfl
  | some h => exact congrArg some h

theorem blind_many_eq (h : Blind Eq p) : Blind Eq (many p) :=
  h.many.mono fun as bs hab => by rwa [List.forall₂_eq_eq_eq] at hab

theorem blind_optional_eq (h : Blind Eq p) : Blind Eq (optional p) := by
  refine h.optional.mono fun a b hab => ?_
  cases hab with
  | none => rfl
  | some h => exact congrArg some h

theorem blind_sepBy1_eq {β : Type} {q : Parser β} {S : β → β → Prop} (h : Blind Eq p) (hq : Blind S q) :
    Blind Eq (sepBy1 p q) := by
  refine (h.map fun a b hab as bs habs => ?_).seq (blind_many_eq (hq.behind h))
  rw [hab, habs]

theorem blind_sepBy1 {β : Type} {q : Parser β} {S : β → β → Prop} (h : Blind (Same e) p) (hq : Blind S q) :
    Blind (Same (List.map e)) (sepBy1 p q) := by
  refine (h.map fun a b hab as bs habs => ?_).seq (blind_many (hq.behind h))
  rw [Same, List.map_cons, List.map_cons, hab, habs]

end Lists

/-! ## Terminals and brackets -/

theorem blind_keyword (word : Keyword) : Blind (fun _ _ => True) (keyword word) := .token _

theorem blind_symbol (mark : Symbol) : Blind (fun _ _ => True) (symbol mark) := .token _

theorem blind_identifier : Blind (Same Prod.fst) identifier := by
  refine (Blind.satisfy fun l m h => ?_).label _
  rw [h]
  split
  · exact .some rfl
  · exact .none

theorem blind_name : Blind Eq (Prod.fst <$> identifier) := blind_identifier.map fun _ _ h => h

theorem blind_string : Blind Eq string := by
  refine (Blind.satisfy fun l m h => ?_).label _
  rw [h]
  split
  · exact .some rfl
  · exact .none

theorem blind_reference : Blind (Same Reference.bare) reference := by
  refine blind_identifier.map ?_
  rintro ⟨a, _⟩ ⟨b, _⟩ rfl
  rfl

section Brackets

variable {α : Type} {R : α → α → Prop} {p : Parser α}

theorem blind_braced (h : Blind R p) : Blind R (braced p) := ((blind_symbol _).behind h).before (blind_symbol _)

theorem blind_parenthesized (h : Blind R p) : Blind R (parenthesized p) :=
  ((blind_symbol _).behind h).before (blind_symbol _)

theorem blind_angled (h : Blind R p) : Blind R (angled p) := ((blind_symbol _).behind h).before (blind_symbol _)

end Brackets

/-! ## Types -/

theorem TypeExpr.bareAll_eq (types : List TypeExpr) : TypeExpr.bareAll types = types.map TypeExpr.bare := by
  induction types with
  | nil => rfl
  | cons type types ih => rw [TypeExpr.bareAll, ih, List.map_cons]

theorem blind_type : Blind (Same TypeExpr.bare) type := by
  refine (Blind.recursive productive_typeBody fun p h => ?_).label _
  have hargs := blind_optional (blind_angled (blind_sepBy1 h (blind_symbol .comma)))
  have hparts : Blind (fun x y => x.1 = y.1 ∧ Same (Option.map (List.map TypeExpr.bare)) x.2 y.2)
      (Prod.mk <$> (Prod.fst <$> identifier) <*> optional (angled (sepBy1 p (symbol .comma)))) :=
    (blind_name.map fun _ _ hab _ _ habs => ⟨hab, habs⟩).seq hargs
  refine hparts.located.map ?_
  rintro ⟨⟨a, as⟩, s⟩ ⟨⟨b, bs⟩, s'⟩ ⟨rfl, h⟩
  cases as <;> cases bs <;> simp_all [Same, TypeExpr.bare, TypeExpr.bareAll_eq]

/-! ## Expressions -/

theorem blind_literal : Blind Eq literal := by
  rw [literal_eq]
  refine Blind.satisfy fun l m h => ?_
  rw [h]
  cases literal? m.token with
  | none => exact .none
  | some e => exact .some rfl

theorem blind_comparisonOp : Blind Eq comparisonOp := by
  refine Blind.satisfy fun l m h => ?_
  rw [h]
  split
  · cases comparison? _ <;> constructor; rfl
  · exact .none

theorem blind_path : Blind Eq path := (blind_sepBy1_eq blind_name (blind_symbol .dot)).map fun _ _ h => congrArg _ h

section Expressions

variable {expr : Parser Expr} (h : Blind Eq expr)

include h

theorem blind_operand : Blind Eq (operand expr) := by
  unfold operand
  simp only [choice_cons, choice_nil, orElse_fail]
  exact (blind_literal.orElse (blind_path.orElse (blind_parenthesized h))).label _

theorem blind_comparison : Blind Eq (comparison expr) := by
  have ho := blind_operand h
  refine (ho.map fun a b hab as bs habs => ?_).seq
    (blind_optional_eq ((blind_comparisonOp.map fun a b hab as bs habs => ?_).seq ho))
  · rw [hab, habs]
  · rw [hab, habs]

theorem blind_negation : Blind Eq (negation expr) := by
  refine ((blind_many_eq ((blind_symbol .not).mono fun _ _ _ => rfl)).map fun a b hab as bs habs => ?_).seq
    (blind_comparison h)
  rw [hab, habs]

theorem blind_leftGrouped (op : Operator) (mark : Symbol) : Blind Eq (leftGrouped op mark expr) := by
  refine (h.map fun a b hab as bs habs => ?_).seq (blind_many_eq ((blind_symbol mark).behind h))
  rw [hab, habs]

end Expressions

theorem blind_expression : Blind Eq expression :=
  (Blind.recursive productive_disjunction fun _ h =>
    blind_leftGrouped (blind_leftGrouped (blind_negation h) .and .and) .or .or).label _

/-! ## Statements -/

theorem blind_action : Blind (Same Action.bare) action := by
  unfold action
  simp only [choice_cons, choice_nil, orElse_fail]
  have hargs : Blind Eq (sepBy expression (symbol .comma)) :=
    (blind_sepBy1_eq blind_expression (blind_symbol .comma)).orElse (Blind.pure rfl)
  refine Blind.orElse ?_ (Blind.orElse ?_ ?_)
  · exact ((blind_keyword .send).behind blind_reference).map fun _ _ h => congrArg Action.send h
  · refine (((blind_keyword .call).behind blind_reference).map fun a b hab as bs habs => ?_).seq (blind_parenthesized hargs)
    subst habs
    exact congrArg (Action.call · as) hab
  · exact ((blind_keyword .goto).behind blind_reference).map fun _ _ h => congrArg Action.goto h

theorem blind_statement : Blind (Same Statement.bare) statement := by
  have hparts : Blind (fun x y => Same Action.bare x.1 y.1 ∧ x.2 = y.2)
      (Prod.mk <$> action <*> optional (keyword .when *> expression)) :=
    (blind_action.map fun _ _ hab _ _ habs => ⟨hab, habs⟩).seq
      (blind_optional_eq ((blind_keyword .when).behind blind_expression))
  refine (hparts.located.map ?_).label _
  rintro ⟨⟨a, g⟩, s⟩ ⟨⟨b, _⟩, s'⟩ ⟨h, rfl⟩
  simpa [Same, Statement.bare] using h

/-! ## Declarations -/

theorem blind_role : Blind Eq role :=
  ((((blind_keyword .role).behind (blind_symbol .colon)).behind (blind_string.orElse blind_name)).before
    (blind_symbol .comma).optional).label _

theorem blind_actor : Blind (Same Actor.bare) actor := by
  refine ((((blind_keyword .actor).behind blind_identifier).map fun a b hab r r' hr => ?_).seq
    (blind_braced (blind_optional_eq blind_role))).label _
  rcases a with ⟨a, s⟩
  rcases b with ⟨b, s'⟩
  obtain rfl : a = b := hab
  subst hr
  rfl

theorem blind_field : Blind (Same Field.bare) field := by
  refine (((blind_identifier.before (blind_symbol .colon)).map fun a b hab t t' ht => ?_).seq blind_type).label _
  simp_all [Same, Field.bare]

theorem blind_param : Blind (Same Param.bare) param := by
  refine (((blind_identifier.before (blind_symbol .colon)).map fun a b hab t t' ht => ?_).seq blind_type).label _
  simp_all [Same, Param.bare]

theorem blind_message : Blind (Same Message.bare) message := by
  have hfields := blind_many (blind_field.before (blind_symbol .comma).optional)
  refine ((((((blind_keyword .message).behind blind_identifier).map fun a b hab s s' hs r r' hr fs fs' hfs => ?_).seq
    (blind_reference.before (blind_symbol .arrow))).seq blind_reference).seq (blind_braced hfields)).label _
  simp_all [Same, Message.bare]

theorem blind_function : Blind (Same Function.bare) function := by
  have hparams : Blind (Same (List.map Param.bare)) (sepEndBy param (symbol .comma)) :=
    ((blind_sepBy1 blind_param (blind_symbol .comma)).before (blind_symbol .comma).optional).orElse (Blind.pure rfl)
  have hreturns := blind_optional ((blind_symbol .arrow).behind blind_type)
  refine ((((((blind_keyword .function).behind blind_identifier).map fun a b hab ps ps' hps r r' hr d d' hd => ?_).seq
    (blind_parenthesized hparams)).seq hreturns).seq (blind_braced (blind_optional_eq blind_string))).label _
  cases r <;> cases r' <;> simp_all [Same, Function.bare, unitType, TypeExpr.bare, TypeExpr.bareAll]

theorem blind_block : Blind (Same Block.bare) block := by
  have hstatements := blind_many (blind_statement.before (blind_symbol .semicolon).optional)
  have hentry := (blind_optional_eq ((blind_keyword .entry).mono fun _ _ _ => rfl)).before (blind_keyword .block)
  refine (((hentry.map fun e e' he a b hab ss ss' hss => ?_).seq blind_identifier).seq
    (blind_braced hstatements)).label _
  simp_all [Same, Block.bare]

def bareDeclaration : Declaration → Declaration
  | .actor decl => .actor decl.bare
  | .message decl => .message decl.bare
  | .block decl => .block decl.bare
  | .function decl => .function decl.bare

theorem blind_declaration : Blind (Same bareDeclaration) declaration := by
  unfold declaration
  simp only [choice_cons, choice_nil, orElse_fail]
  refine (Blind.orElse ?_ (Blind.orElse ?_ (Blind.orElse ?_ ?_))).label _
  · exact blind_actor.map fun _ _ h => congrArg Declaration.actor h
  · exact blind_message.map fun _ _ h => congrArg Declaration.message h
  · exact blind_function.map fun _ _ h => congrArg Declaration.function h
  · exact blind_block.map fun _ _ h => congrArg Declaration.block h

/-! ## Transactions -/

theorem blind_header : Blind (fun x y => x.1.1 = y.1.1 ∧ x.2 = y.2) header := by
  refine (((((blind_keyword .transaction).behind blind_identifier).map fun a b hab d d' hd => ?_).seq
    (blind_optional_eq blind_string)).before (blind_symbol .openBrace)).label _
  exact ⟨hab, hd⟩

/-- Sorting declarations by category and erasing spans may trade places. -/
theorem bare_assemble (head : (String × Span) × Option String) (decls : List Declaration) :
    (assemble head decls).bare = assemble ((head.1.1, .nowhere), head.2) (decls.map bareDeclaration) := by
  unfold assemble Transaction.bare
  simp only [List.map_filterMap, List.filterMap_map]
  congr 1 <;> (congr 1; funext d; cases d <;> rfl)

theorem blind_transaction : Blind (Same Transaction.bare) transaction := by
  refine ((blind_header.map fun h h' hh ds ds' hds => ?_).seq (blind_many blind_declaration)).before
    (blind_symbol .closeBrace)
  rw [Same, bare_assemble, bare_assemble, hh.1, hh.2, hds]

theorem blind_schema : Blind (Same Schema.bare) schema := by
  have hlist : Blind (Same (List.map Transaction.bare)) (many1 transaction) := by
    refine (blind_transaction.map fun t t' ht ts ts' hts => ?_).seq (blind_many blind_transaction)
    rw [Same, List.map_cons, List.map_cons, ht, hts]
  refine Blind.before (hlist.map fun ts ts' hts => ?_) .atEnd
  exact congrArg Schema.mk hts

theorem blind_chunk : Blind (fun _ _ => True) chunk :=
  (((blind_header.map fun _ _ _ => trivial).orElse (blind_declaration.map fun _ _ _ => trivial)).before
    (blind_symbol .closeBrace).many).before .atEnd

end Parley.Grammar
