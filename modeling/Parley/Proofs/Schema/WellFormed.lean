/-
Well-formed schemas: every name in them can be one, no path is empty, no integer is negative and
there is a transaction. Spans play no part in it, nor in the canonical text, and everything that is
read off a derivation over spellable tokens is well-formed.
-/
import Parley.Proofs.Grammar.Blind
import Parley.Proofs.Token.Spelling
import Parley.Schema.Print

namespace Parley

mutual

/-- The type and its arguments have names that can be ones. -/
def TypeExpr.WellFormed : TypeExpr → Prop
  | ⟨name, args, _⟩ => IsName name ∧ TypeExpr.AllWellFormed args

def TypeExpr.AllWellFormed : List TypeExpr → Prop
  | [] => True
  | type :: types => type.WellFormed ∧ TypeExpr.AllWellFormed types

end

/-- Paths are not empty and made of names; integers, which have no sign, are not negative. -/
def Expr.WellFormed : Expr → Prop
  | .path segments => segments ≠ [] ∧ ∀ segment ∈ segments, IsName segment
  | .integer value => 0 ≤ value.toInt
  | .string _ | .boolean _ => True
  | .not inner => inner.WellFormed
  | .binary _ left right => left.WellFormed ∧ right.WellFormed

def Action.WellFormed : Action → Prop
  | .send message => IsName message.name
  | .call function args => IsName function.name ∧ ∀ e ∈ args, e.WellFormed
  | .goto block => IsName block.name

def Statement.WellFormed (s : Statement) : Prop := s.action.WellFormed ∧ ∀ e ∈ s.guard, e.WellFormed

def Actor.WellFormed (a : Actor) : Prop := IsName a.name

def Field.WellFormed (f : Field) : Prop := IsName f.name ∧ f.type.WellFormed

def Message.WellFormed (m : Message) : Prop :=
  IsName m.name ∧ IsName m.sender.name ∧ IsName m.receiver.name ∧ ∀ f ∈ m.fields, f.WellFormed

def Param.WellFormed (p : Param) : Prop := IsName p.name ∧ p.type.WellFormed

def Function.WellFormed (f : Function) : Prop :=
  IsName f.name ∧ (∀ p ∈ f.params, p.WellFormed) ∧ f.returns.WellFormed

def Block.WellFormed (b : Block) : Prop := IsName b.name ∧ ∀ s ∈ b.statements, s.WellFormed

def Transaction.WellFormed (tx : Transaction) : Prop :=
  IsName tx.name ∧ (∀ a ∈ tx.actors, a.WellFormed) ∧ (∀ m ∈ tx.messages, m.WellFormed) ∧
    (∀ f ∈ tx.functions, f.WellFormed) ∧ ∀ b ∈ tx.blocks, b.WellFormed

/-- A schema that a text can express. -/
def Schema.WellFormed (s : Schema) : Prop := s.transactions ≠ [] ∧ ∀ tx ∈ s.transactions, tx.WellFormed

/-! ## Without spans -/

mutual

theorem TypeExpr.wellFormed_bare : ∀ type : TypeExpr, type.bare.WellFormed ↔ type.WellFormed
  | ⟨_, args, _⟩ => and_congr_right fun _ => TypeExpr.allWellFormed_bare args

theorem TypeExpr.allWellFormed_bare : ∀ types : List TypeExpr, AllWellFormed (bareAll types) ↔ AllWellFormed types
  | [] => Iff.rfl
  | type :: types => and_congr (TypeExpr.wellFormed_bare type) (TypeExpr.allWellFormed_bare types)

end

mutual

theorem TypeExpr.print_bare : ∀ type : TypeExpr, type.bare.print = type.print
  | ⟨_, [], _⟩ => rfl
  | ⟨_, arg :: args, _⟩ => by
    rw [bare, bareAll, print, print, TypeExpr.print_bare arg, TypeExpr.printRest_bare args]

theorem TypeExpr.printRest_bare : ∀ types : List TypeExpr, printRest (bareAll types) = printRest types
  | [] => rfl
  | type :: types => by rw [bareAll, printRest, printRest, TypeExpr.print_bare type, TypeExpr.printRest_bare types]

end

theorem Action.wellFormed_bare (a : Action) : a.bare.WellFormed ↔ a.WellFormed := by
  cases a <;> exact Iff.rfl

theorem Action.print_bare (a : Action) : a.bare.print = a.print := by
  cases a <;> rfl

theorem Statement.wellFormed_bare (s : Statement) : s.bare.WellFormed ↔ s.WellFormed :=
  and_congr_left fun _ => s.action.wellFormed_bare

theorem Statement.print_bare (s : Statement) : s.bare.print = s.print :=
  congrArg (· ++ _) s.action.print_bare

theorem Field.wellFormed_bare (f : Field) : f.bare.WellFormed ↔ f.WellFormed :=
  and_congr_right fun _ => f.type.wellFormed_bare

theorem Field.print_bare (f : Field) : f.bare.print = f.print := by
  simp [print, bare, TypeExpr.print_bare]

theorem Message.wellFormed_bare (m : Message) : m.bare.WellFormed ↔ m.WellFormed := by
  simp [WellFormed, bare, Reference.bare, Field.wellFormed_bare]

theorem Message.print_bare (m : Message) : m.bare.print = m.print := by
  simp [print, bare, Reference.bare, Function.comp_def, Field.print_bare]

theorem Param.wellFormed_bare (p : Param) : p.bare.WellFormed ↔ p.WellFormed :=
  and_congr_right fun _ => p.type.wellFormed_bare

theorem Param.print_bare (p : Param) : p.bare.print = p.print := by
  simp [print, bare, TypeExpr.print_bare]

theorem Function.wellFormed_bare (f : Function) : f.bare.WellFormed ↔ f.WellFormed := by
  simp [WellFormed, bare, Param.wellFormed_bare, TypeExpr.wellFormed_bare]

theorem Function.print_bare (f : Function) : f.bare.print = f.print := by
  simp [print, bare, Function.comp_def, Param.print_bare, TypeExpr.print_bare]

theorem Block.wellFormed_bare (b : Block) : b.bare.WellFormed ↔ b.WellFormed := by
  simp [WellFormed, bare, Statement.wellFormed_bare]

theorem Block.print_bare (b : Block) : b.bare.print = b.print := by
  unfold print bare
  simp only [List.map_map, Function.comp_def, Statement.print_bare]

theorem Transaction.wellFormed_bare (tx : Transaction) : tx.bare.WellFormed ↔ tx.WellFormed := by
  have hactor : ∀ a : Actor, a.bare.WellFormed ↔ a.WellFormed := fun _ => Iff.rfl
  simp [WellFormed, bare, hactor, Message.wellFormed_bare, Block.wellFormed_bare, Function.wellFormed_bare]

theorem Transaction.print_bare (tx : Transaction) : tx.bare.print = tx.print := by
  have hactor : ∀ a : Actor, a.bare.print = a.print := fun _ => rfl
  delta print bare
  simp only [List.map_map, Function.comp_def, hactor, Message.print_bare, Block.print_bare, Function.print_bare]

theorem Schema.wellFormed_bare (s : Schema) : s.bare.WellFormed ↔ s.WellFormed := by
  simp [WellFormed, bare, Transaction.wellFormed_bare]

theorem Schema.print_bare (s : Schema) : s.bare.print = s.print := by
  simp [print, bare, Function.comp_def, Transaction.print_bare]

/-! ## What is read is well-formed -/

/-- Lexemes whose tokens a text can hold. -/
def Spelled (ls : List Lexeme) : Prop := ∀ l ∈ ls, l.token.Spellable

namespace Spelled

@[simp] theorem nil : Spelled [] := nofun

@[simp] theorem cons {l : Lexeme} {ls : List Lexeme} : Spelled (l :: ls) ↔ l.token.Spellable ∧ Spelled ls :=
  List.forall_mem_cons

@[simp] theorem append {ls ms : List Lexeme} : Spelled (ls ++ ms) ↔ Spelled ls ∧ Spelled ms := List.forall_mem_append

@[simp] theorem flatMap {τ : Type} {f : τ → List Lexeme} {ts : List τ} :
    Spelled (ts.flatMap f) ↔ ∀ t ∈ ts, Spelled (f t) := by
  simp only [Spelled, List.mem_flatMap]
  exact ⟨fun h t ht l hl => h l ⟨t, ht, hl⟩, fun h l ⟨t, ht, hl⟩ => h t ht l hl⟩

end Spelled

@[simp] theorem NameLeaf.spellable (leaf : NameLeaf) : leaf.lexeme.token.Spellable ↔ IsName leaf.value := by
  rw [leaf.holds]; rfl

theorem IntegerLeaf.spellable (leaf : IntegerLeaf) : leaf.lexeme.token.Spellable ↔ 0 ≤ leaf.value.toInt := by
  rw [leaf.holds]; rfl

mutual

theorem TypeTree.wellFormed : ∀ t : TypeTree, Spelled t.lexemes → t.type.WellFormed
  | .plain name, h => ⟨by simpa [TypeTree.lexemes] using h, trivial⟩
  | .applied name left first more right, h => by
    simp only [TypeTree.lexemes, Spelled.cons, Spelled.append] at h
    obtain ⟨hname, -, hfirst, hmore, -⟩ := h
    exact ⟨name.spellable.1 hname, first.wellFormed hfirst, more.wellFormed hmore⟩

theorem TypeTrees.wellFormed : ∀ ts : TypeTrees, Spelled ts.lexemes → TypeExpr.AllWellFormed ts.types
  | .none, _ => trivial
  | .more comma type rest, h => by
    simp only [TypeTrees.lexemes, Spelled.cons, Spelled.append] at h
    obtain ⟨-, htype, hrest⟩ := h
    exact ⟨type.wellFormed htype, rest.wellFormed hrest⟩

end

mutual

theorem OperandTree.wellFormed : ∀ t : OperandTree, Spelled t.lexemes → t.expr.WellFormed
  | .path head tail, h => by
    simp only [OperandTree.lexemes, Spelled.cons, Spelled.flatMap] at h
    obtain ⟨hhead, htail⟩ := h
    refine ⟨List.cons_ne_nil _ _, List.forall_mem_cons.2 ⟨head.spellable.1 hhead, ?_⟩⟩
    rintro _ hname
    obtain ⟨x, hx, rfl⟩ := List.mem_map.1 hname
    exact x.2.spellable.1 (htail x hx).2.1
  | .integer leaf, h => (IntegerLeaf.spellable leaf).1 (Spelled.cons.1 h).1
  | .string _, _ => trivial
  | .yes _, _ => trivial
  | .no _, _ => trivial
  | .parenthesized left inner right, h => by
    simp only [OperandTree.lexemes, Spelled.cons, Spelled.append] at h
    exact inner.wellFormed h.2.1

theorem CmpTree.wellFormed : ∀ t : CmpTree, Spelled t.lexemes → t.expr.WellFormed
  | .operand only, h => only.wellFormed h
  | .compared left op right, h => by
    simp only [CmpTree.lexemes, Spelled.cons, Spelled.append] at h
    exact ⟨left.wellFormed h.1, right.wellFormed h.2.2⟩

theorem UnaryTree.wellFormed : ∀ t : UnaryTree, Spelled t.lexemes → t.expr.WellFormed
  | .not _ inner, h => inner.wellFormed (Spelled.cons.1 h).2
  | .cmp inner, h => inner.wellFormed h

theorem AndTree.wellFormed : ∀ t : AndTree, Spelled t.lexemes → t.expr.WellFormed
  | .mk head tail, h => tail.wellFormed (Spelled.append.1 h).2 _ (head.wellFormed (Spelled.append.1 h).1)

theorem AndTail.wellFormed : ∀ t : AndTail, Spelled t.lexemes → ∀ e : Expr, e.WellFormed → (t.onto e).WellFormed
  | .none, _, _, he => he
  | .more _ item rest, h, _, he => by
    simp only [AndTail.lexemes, Spelled.cons, Spelled.append] at h
    exact rest.wellFormed h.2.2 _ ⟨he, item.wellFormed h.2.1⟩

theorem OrTree.wellFormed : ∀ t : OrTree, Spelled t.lexemes → t.expr.WellFormed
  | .mk head tail, h => tail.wellFormed (Spelled.append.1 h).2 _ (head.wellFormed (Spelled.append.1 h).1)

theorem OrTail.wellFormed : ∀ t : OrTail, Spelled t.lexemes → ∀ e : Expr, e.WellFormed → (t.onto e).WellFormed
  | .none, _, _, he => he
  | .more _ item rest, h, _, he => by
    simp only [OrTail.lexemes, Spelled.cons, Spelled.append] at h
    exact rest.wellFormed h.2.2 _ ⟨he, item.wellFormed h.2.1⟩

end

/-- What holds of everything read off spelled trees holds of the members of a list of them. -/
theorem Separated.forall_values {τ α : Type} {f : τ → List Lexeme} {v : τ → α} {P : α → Prop} (s : Separated τ)
    (h : Spelled (s.lexemes f)) (hP : ∀ t, Spelled (f t) → P (v t)) : ∀ a ∈ s.values v, P a := by
  simp only [lexemes, Spelled.append, Spelled.flatMap, Spelled.cons] at h
  obtain ⟨hfirst, hmore⟩ := h
  exact List.forall_mem_cons.2 ⟨hP _ hfirst, List.forall_mem_map.2 fun x hx => hP _ (hmore x hx).2⟩

theorem ActionTree.wellFormed (t : ActionTree) (h : Spelled t.lexemes) : t.action.WellFormed := by
  cases t with
  | send word target => exact target.spellable.1 (Spelled.cons.1 (Spelled.cons.1 h).2).1
  | goto word target => exact target.spellable.1 (Spelled.cons.1 (Spelled.cons.1 h).2).1
  | call word target left args right =>
    simp only [lexemes, Spelled.cons, Spelled.append] at h
    obtain ⟨-, htarget, -, hargs, -⟩ := h
    refine ⟨target.spellable.1 htarget, ?_⟩
    cases args with
    | none =>
      intro e he
      cases he
    | some args => exact args.forall_values hargs fun t => t.wellFormed

theorem StatementTree.wellFormed (t : StatementTree) (h : Spelled t.lexemes) : t.statement.WellFormed := by
  obtain ⟨haction, hguard⟩ := Spelled.append.1 h
  refine ⟨t.action.wellFormed haction, ?_⟩
  rcases t with ⟨action, _ | ⟨word, condition⟩⟩
  · nofun
  · rintro _ ⟨⟩
    exact condition.wellFormed (Spelled.cons.1 hguard).2

theorem ActorTree.wellFormed (t : ActorTree) (h : Spelled t.lexemes) : t.actor.WellFormed := by
  simp only [lexemes, Spelled.cons] at h
  exact t.name.spellable.1 h.2.1

theorem BindingTree.wellFormed (t : BindingTree) (h : Spelled t.lexemes) : IsName t.name.value ∧ t.type.type.WellFormed := by
  simp only [lexemes, Spelled.cons] at h
  exact ⟨t.name.spellable.1 h.1, t.type.wellFormed h.2.2⟩

theorem MessageTree.wellFormed (t : MessageTree) (h : Spelled t.lexemes) : t.message.WellFormed := by
  simp only [lexemes, Spelled.cons, Spelled.append, Spelled.flatMap, closedLexemes] at h
  obtain ⟨-, hname, hsender, -, hreceiver, -, hfields, -⟩ := h
  refine ⟨t.name.spellable.1 hname, t.sender.spellable.1 hsender, t.receiver.spellable.1 hreceiver, ?_⟩
  exact List.forall_mem_map.2 fun x hx => x.1.wellFormed (hfields x hx).1

theorem FunctionTree.wellFormed (t : FunctionTree) (h : Spelled t.lexemes) : t.function.WellFormed := by
  simp only [lexemes, Spelled.cons, Spelled.append] at h
  obtain ⟨-, hname, -, hparams, -, hreturns, -⟩ := h
  refine ⟨t.name.spellable.1 hname, ?_, ?_⟩
  · rcases t with ⟨word, name, left, _ | ⟨params, comma⟩, right, returns, openBrace, description, closeBrace⟩
    · intro p hp
      cases hp
    · exact params.forall_values (Spelled.append.1 hparams).1 fun t ht => t.wellFormed ht
  · rcases t with ⟨word, name, left, params, right, _ | ⟨arrow, type⟩, openBrace, description, closeBrace⟩
    · -- a function without a result returns `unit`, which is a name
      exact ⟨by decide, trivial⟩
    · exact type.wellFormed (Spelled.cons.1 hreturns).2

theorem BlockTree.wellFormed (t : BlockTree) (h : Spelled t.lexemes) : t.block.WellFormed := by
  simp only [lexemes, Spelled.cons, Spelled.append, Spelled.flatMap, closedLexemes] at h
  obtain ⟨-, -, hname, -, hstatements, -⟩ := h
  exact ⟨t.name.spellable.1 hname, List.forall_mem_map.2 fun x hx => x.1.wellFormed (hstatements x hx).1⟩

theorem TransactionTree.wellFormed (t : TransactionTree) (h : Spelled t.lexemes) : t.transaction.WellFormed := by
  simp only [lexemes, HeaderTree.lexemes, Spelled.cons, Spelled.append, Spelled.flatMap] at h
  obtain ⟨⟨-, hname, -⟩, hdecls, -⟩ := h
  refine ⟨t.header.name.spellable.1 hname, ?_, ?_, ?_, ?_⟩ <;> refine List.forall_mem_filterMap.2 fun d hd a ha => ?_
  · cases d <;> cases ha
    exact ActorTree.wellFormed _ (hdecls _ hd)
  · cases d <;> cases ha
    exact MessageTree.wellFormed _ (hdecls _ hd)
  · cases d <;> cases ha
    exact FunctionTree.wellFormed _ (hdecls _ hd)
  · cases d <;> cases ha
    exact BlockTree.wellFormed _ (hdecls _ hd)

/-- What is read off a derivation over spellable tokens is well-formed. -/
theorem SchemaTree.wellFormed (t : SchemaTree) (h : Spelled t.lexemes) : t.schema.WellFormed := by
  exact ⟨List.cons_ne_nil _ _, List.forall_mem_map.2 fun x hx => x.wellFormed (Spelled.flatMap.1 h x hx)⟩

end Parley
