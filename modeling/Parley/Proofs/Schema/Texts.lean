/-
The texts of a schema: descriptions, roles and the literals in expressions. A function is applied to
each of them, which keeps everything else; in the form of the schema this applies it to the literals.
-/
import Parley.Proofs.Schema.Fingerprint

namespace Parley

/-! ## Texts of schemas -/

section Texts

variable (f : String → String)

def Expr.mapTexts : Expr → Expr
  | .string value => .string (f value)
  | .not inner => .not inner.mapTexts
  | .binary op left right => .binary op left.mapTexts right.mapTexts
  | .path segments => .path segments
  | .integer value => .integer value
  | .boolean value => .boolean value

def Action.mapTexts : Action → Action
  | .call function args => .call function (args.map (Expr.mapTexts f))
  | .send message => .send message
  | .goto block => .goto block

def Statement.mapTexts (s : Statement) : Statement :=
  { s with action := s.action.mapTexts f, guard := s.guard.map (Expr.mapTexts f) }

def Actor.mapTexts (a : Actor) : Actor := { a with role := a.role.map f }

def Function.mapTexts (g : Function) : Function := { g with description := g.description.map f }

def Block.mapTexts (b : Block) : Block := { b with statements := b.statements.map (Statement.mapTexts f) }

def Transaction.mapTexts (tx : Transaction) : Transaction :=
  { tx with
    description := tx.description.map f
    actors := tx.actors.map (Actor.mapTexts f)
    blocks := tx.blocks.map (Block.mapTexts f)
    functions := tx.functions.map (Function.mapTexts f) }

/-- The schema with a function applied to its descriptions, roles and literals. -/
def Schema.mapTexts (s : Schema) : Schema := ⟨s.transactions.map (Transaction.mapTexts f)⟩

/-! ### Names stay -/

variable {f}

theorem Expr.wellFormed_mapTexts {e : Expr} (h : e.WellFormed) : (e.mapTexts f).WellFormed := by
  induction e with
  | path | integer | string | boolean => exact h
  | not inner ih => exact ih h
  | binary op left right ihl ihr => exact ⟨ihl h.1, ihr h.2⟩

theorem Statement.wellFormed_mapTexts {s : Statement} (h : s.WellFormed) : (s.mapTexts f).WellFormed := by
  obtain ⟨haction, hguard⟩ := h
  constructor
  · show (s.action.mapTexts f).WellFormed
    generalize s.action = action at haction
    cases action with
    | send | goto => exact haction
    | call function args => exact ⟨haction.1, List.forall_mem_map.2 fun e he => Expr.wellFormed_mapTexts (haction.2 e he)⟩
  · intro e he
    obtain ⟨condition, hcondition, rfl⟩ := Option.map_eq_some_iff.1 he
    exact Expr.wellFormed_mapTexts (hguard condition hcondition)

theorem Transaction.wellFormed_mapTexts {tx : Transaction} (h : tx.WellFormed) : (tx.mapTexts f).WellFormed := by
  obtain ⟨hname, hactors, hmessages, hfunctions, hblocks⟩ := h
  refine ⟨hname, List.forall_mem_map.2 fun a ha => hactors a ha, hmessages, List.forall_mem_map.2 fun g hg => hfunctions g hg,
    List.forall_mem_map.2 fun b hb => ⟨(hblocks b hb).1, ?_⟩⟩
  exact List.forall_mem_map.2 fun s hs => Statement.wellFormed_mapTexts ((hblocks b hb).2 s hs)

end Texts

/-! ## Literals of forms -/

namespace Form

mutual

/-- The form with a function applied to its literals. -/
def mapLiterals (f : String → String) : Form → Form
  | .word text => .word text
  | .literal value => .literal (f value)
  | .list parts => .list (mapAll f parts)

def mapAll (f : String → String) : List Form → List Form
  | [] => []
  | form :: forms => form.mapLiterals f :: mapAll f forms

end

variable {f : String → String}

theorem mapAll_eq (forms : List Form) : mapAll f forms = forms.map (mapLiterals f) := by
  induction forms with
  | nil => rfl
  | cons form forms ih => rw [mapAll, ih, List.map_cons]

mutual

theorem proper_mapLiterals : ∀ form : Form, form.Proper → (form.mapLiterals f).Proper
  | .word _, h => h
  | .literal _, _ => trivial
  | .list parts, h => allProper_mapAll parts h

theorem allProper_mapAll : ∀ forms : List Form, AllProper forms → AllProper (mapAll f forms)
  | [], _ => trivial
  | form :: forms, h => ⟨proper_mapLiterals form h.1, allProper_mapAll forms h.2⟩

end

theorem mapLiterals_list (parts : List Form) : (list parts).mapLiterals f = .list (parts.map (mapLiterals f)) := by
  rw [mapLiterals, mapAll_eq]

end Form

/-! ## Forms of changed texts -/

section Forms

variable (f : String → String)

mutual

/-- A type has no text. -/
theorem TypeExpr.mapLiterals_form : ∀ type : TypeExpr, type.form.mapLiterals f = type.form
  | ⟨_, [], _⟩ => rfl
  | ⟨_, arg :: args, _⟩ => by
    simp only [form, Form.mapLiterals, Form.mapAll, TypeExpr.mapLiterals_form arg, TypeExpr.mapAll_forms args]

theorem TypeExpr.mapAll_forms : ∀ types : List TypeExpr, Form.mapAll f (forms types) = forms types
  | [] => rfl
  | type :: types => by rw [forms, Form.mapAll, TypeExpr.mapLiterals_form type, TypeExpr.mapAll_forms types]

end

theorem Expr.form_mapTexts (e : Expr) : (e.mapTexts f).form = e.form.mapLiterals f := by
  induction e with
  | path | integer | string | boolean => rfl
  | not inner ih => simp only [mapTexts, form, Form.mapLiterals, Form.mapAll, ih]
  | binary op left right ihl ihr => simp only [mapTexts, form, Form.mapLiterals, Form.mapAll, ihl, ihr]

theorem Statement.form_mapTexts (s : Statement) : (s.mapTexts f).form = s.form.mapLiterals f := by
  have haction : (s.action.mapTexts f).forms = s.action.forms.map (Form.mapLiterals f) := by
    cases s.action <;> simp [Action.mapTexts, Action.forms, Form.mapLiterals, Function.comp_def, Expr.form_mapTexts]
  rw [form, form, Form.mapLiterals_list, List.map_append, ← haction]
  cases s with
  | mk action guard span => cases guard <;> simp [mapTexts, Form.mapLiterals, Form.mapAll, Expr.form_mapTexts]

theorem Actor.form_mapTexts (a : Actor) : (a.mapTexts f).form = a.form.mapLiterals f := by
  rcases a with ⟨name, _ | role, span⟩ <;> rfl

theorem Message.mapLiterals_form (m : Message) : m.form.mapLiterals f = m.form := by
  simp [form, Form.mapLiterals_list, Form.mapLiterals, Function.comp_def, Field.form, TypeExpr.mapLiterals_form]

theorem Function.form_mapTexts (g : Function) : (g.mapTexts f).form = g.form.mapLiterals f := by
  rcases g with ⟨name, params, returns, _ | description, span⟩ <;>
    simp [form, mapTexts, Form.mapLiterals_list, Form.mapLiterals, Form.mapAll, Function.comp_def, Param.form,
      TypeExpr.mapLiterals_form]

theorem Block.form_mapTexts (b : Block) : (b.mapTexts f).form = b.form.mapLiterals f := by
  rcases b with ⟨name, _ | _, statements, span⟩ <;>
    simp [form, mapTexts, Form.mapLiterals_list, Form.mapLiterals, Function.comp_def, Statement.form_mapTexts]

theorem Transaction.form_mapTexts (tx : Transaction) : (tx.mapTexts f).form = tx.form.mapLiterals f := by
  rcases tx with ⟨name, _ | description, actors, messages, blocks, functions, span⟩ <;>
    simp [form, mapTexts, declarations, Form.mapLiterals_list, Form.mapLiterals, Function.comp_def, Declaration.form,
      Actor.form_mapTexts, Message.mapLiterals_form, Function.form_mapTexts, Block.form_mapTexts]

end Forms

/-- Schemas have the same structure up to a function of their texts exactly when their forms are the same
up to this function of their literals. -/
theorem Schema.bare_mapTexts_eq_iff {a b : Schema} (ha : ∀ tx ∈ a.transactions, tx.WellFormed)
    (hb : ∀ tx ∈ b.transactions, tx.WellFormed) (f : String → String) :
    (a.mapTexts f).bare = (b.mapTexts f).bare ↔
      (a.transactions.map Transaction.form).map (Form.mapLiterals f) = (b.transactions.map Transaction.form).map (Form.mapLiterals f) := by
  have hforms : ∀ s : Schema, (s.transactions.map Transaction.form).map (Form.mapLiterals f) =
      (s.mapTexts f).transactions.map Transaction.form := by
    intro s
    simp [mapTexts, Function.comp_def, Transaction.form_mapTexts]
  rw [hforms, hforms]
  constructor
  · intro h
    rw [← forms_bare (a.mapTexts f), h, forms_bare]
  · intro h
    have hinj : ∀ x ∈ (a.mapTexts f).transactions, ∀ y ∈ (b.mapTexts f).transactions, x.form = y.form → x.bare = y.bare := by
      intro x hx y hy
      obtain ⟨tx, htx, rfl⟩ := List.mem_map.1 hx
      obtain ⟨tx', htx', rfl⟩ := List.mem_map.1 hy
      exact Transaction.bare_of_form (Transaction.wellFormed_mapTexts (ha tx htx)) (Transaction.wellFormed_mapTexts (hb tx' htx'))
    exact congrArg Schema.mk (map_bare_of_map_form hinj h)

end Parley
