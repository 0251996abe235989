/-
Renaming the references of a schema by their places: the ends of messages and the targets of
statements. In a derivation the lexemes of references are marked; putting names into the marked
ones gives a derivation of the renamed schema.
-/
import Parley.Analysis.Validation
import Parley.Proofs.Grammar.Tree
import Parley.Proofs.Parser.Blind
import Parley.Proofs.Token.Respell

namespace Parley

variable (ρ : Renaming)

/-! ## Schemas -/

def Reference.renamed (r : Reference) : Reference := { r with name := (ρ r.span.offset).getD r.name }

def Action.renamed : Action → Action
  | .send message => .send (message.renamed ρ)
  | .call function args => .call (function.renamed ρ) args
  | .goto block => .goto (block.renamed ρ)

def Statement.renamed (s : Statement) : Statement := { s with action := s.action.renamed ρ }

def Message.renamed (m : Message) : Message :=
  { m with sender := m.sender.renamed ρ, receiver := m.receiver.renamed ρ }

def Block.renamed (b : Block) : Block := { b with statements := b.statements.map (Statement.renamed ρ) }

def Transaction.renamed (tx : Transaction) : Transaction :=
  { tx with messages := tx.messages.map (Message.renamed ρ), blocks := tx.blocks.map (Block.renamed ρ) }

/-- The schema with names put in for references; declarations keep theirs. -/
def Schema.renamed (s : Schema) : Schema := ⟨s.transactions.map (Transaction.renamed ρ)⟩

/-! ## Derivations -/

def NameLeaf.renamed (leaf : NameLeaf) : NameLeaf :=
  let word := (ρ leaf.lexeme.span.offset).getD leaf.value
  ⟨word, { leaf.lexeme with token := .name word, text := word }, rfl⟩

theorem NameLeaf.token_renamed (leaf : NameLeaf) : (leaf.renamed ρ).lexeme.token = leaf.lexeme.respelled ρ := by
  show Token.name ((ρ leaf.lexeme.span.offset).getD leaf.value) = _
  unfold Lexeme.respelled
  rw [leaf.holds]
  cases ρ leaf.lexeme.span.offset <;> rfl

def ActionTree.renamed : ActionTree → ActionTree
  | send word target => .send word (target.renamed ρ)
  | call word target left args right => .call word (target.renamed ρ) left args right
  | goto word target => .goto word (target.renamed ρ)

def StatementTree.renamed (t : StatementTree) : StatementTree := { t with action := t.action.renamed ρ }

def MessageTree.renamed (t : MessageTree) : MessageTree :=
  { t with sender := t.sender.renamed ρ, receiver := t.receiver.renamed ρ }

def BlockTree.renamed (t : BlockTree) : BlockTree :=
  { t with statements := t.statements.map fun x => (x.1.renamed ρ, x.2) }

def DeclarationTree.renamed : DeclarationTree → DeclarationTree
  | .message tree => .message (tree.renamed ρ)
  | .block tree => .block (tree.renamed ρ)
  | tree => tree

def TransactionTree.renamed (t : TransactionTree) : TransactionTree :=
  { t with declarations := t.declarations.map (DeclarationTree.renamed ρ) }

def SchemaTree.renamed (t : SchemaTree) : SchemaTree := ⟨t.first.renamed ρ, t.more.map (TransactionTree.renamed ρ)⟩

theorem ActionTree.action_renamed (t : ActionTree) : (t.renamed ρ).action = t.action.renamed ρ := by
  cases t <;> rfl

theorem StatementTree.statement_renamed (t : StatementTree) : (t.renamed ρ).statement = t.statement.renamed ρ := by
  -- a renamed leaf keeps its span, so the statement does
  have hspans : (t.renamed ρ).lexemes.map (·.span) = t.lexemes.map (·.span) := by
    rcases t with ⟨action, guard⟩
    cases action <;> simp [renamed, lexemes, ActionTree.renamed, ActionTree.lexemes, NameLeaf.renamed]
  have hfirst : (t.renamed ρ).lexemes.head?.map (·.span) = t.lexemes.head?.map (·.span) := by
    rw [← List.head?_map, ← List.head?_map, hspans]
  have hlast : (t.renamed ρ).lexemes.getLast?.map (·.span) = t.lexemes.getLast?.map (·.span) := by
    rw [← List.getLast?_map, ← List.getLast?_map, hspans]
  have helim : ∀ o : Option Lexeme, o.elim Span.nowhere (·.span) = (o.map (·.span)).getD .nowhere := by
    intro o; cases o <;> rfl
  simp only [statement, Statement.renamed, helim, hfirst, hlast]
  simp only [renamed, ActionTree.action_renamed]

theorem BlockTree.block_renamed (t : BlockTree) : (t.renamed ρ).block = t.block.renamed ρ := by
  simp [renamed, block, Block.renamed, StatementTree.statement_renamed]

/-- The schema of a renamed derivation is the renamed schema, with the spans it has. -/
theorem SchemaTree.schema_renamed (t : SchemaTree) : (t.renamed ρ).schema = t.schema.renamed ρ := by
  have hmessage : ∀ d : DeclarationTree, (d.renamed ρ).message? = d.message?.map (Message.renamed ρ) := by
    intro d; cases d <;> rfl
  have hblock : ∀ d : DeclarationTree, (d.renamed ρ).block? = d.block?.map (Block.renamed ρ) := by
    intro d
    cases d with
    | block tree => exact congrArg some (tree.block_renamed ρ)
    | _ => rfl
  have hactor : ∀ d : DeclarationTree, (d.renamed ρ).actor? = d.actor? := by intro d; cases d <;> rfl
  have hfunction : ∀ d : DeclarationTree, (d.renamed ρ).function? = d.function? := by intro d; cases d <;> rfl
  have htx : ∀ t : TransactionTree, (t.renamed ρ).transaction = t.transaction.renamed ρ := by
    intro t
    simp only [TransactionTree.renamed, TransactionTree.transaction, Transaction.renamed, List.filterMap_map,
      List.map_filterMap, Function.comp_def, hmessage, hblock, hactor, hfunction]
  simp [renamed, schema, transactions, Schema.renamed, htx]

/-! ## Marked lexemes -/

def unmarked (ls : List Lexeme) : List (Lexeme × Bool) := ls.map (·, false)

def marks (ms : List (Lexeme × Bool)) : List Lexeme := ms.filterMap fun x => if x.2 then some x.1 else none

/-- The tokens of lexemes with names put into the marked ones. -/
def respelledMarks (ms : List (Lexeme × Bool)) : List Token := ms.map fun x => if x.2 then x.1.respelled ρ else x.1.token

section Marked

variable {ρ} (l : Lexeme) (b : Bool) (ls : List Lexeme) (ms ns : List (Lexeme × Bool))

@[simp] theorem marks_unmarked : marks (unmarked ls) = [] := by
  simp [marks, unmarked]

@[simp] theorem marks_nil : marks [] = [] := rfl

@[simp] theorem marks_cons : marks ((l, b) :: ms) = if b then l :: marks ms else marks ms := by
  cases b <;> rfl

@[simp] theorem marks_append : marks (ms ++ ns) = marks ms ++ marks ns := List.filterMap_append

theorem marks_flatMap {τ : Type} (f : τ → List (Lexeme × Bool)) (xs : List τ) :
    marks (xs.flatMap f) = xs.flatMap fun x => marks (f x) := List.filterMap_flatMap

variable {l ms} in
theorem mem_marks_iff : l ∈ marks ms ↔ (l, true) ∈ ms := by
  simp [marks]

@[simp] theorem respelledMarks_unmarked : respelledMarks ρ (unmarked ls) = tokensOf ls := by
  simp [respelledMarks, unmarked, tokensOf]

@[simp] theorem respelledMarks_nil : respelledMarks ρ [] = [] := rfl

@[simp] theorem respelledMarks_cons :
    respelledMarks ρ ((l, b) :: ms) = (if b then l.respelled ρ else l.token) :: respelledMarks ρ ms := rfl

@[simp] theorem respelledMarks_append : respelledMarks ρ (ms ++ ns) = respelledMarks ρ ms ++ respelledMarks ρ ns :=
  List.map_append

@[simp] theorem map_fst_unmarked : (unmarked ls).map Prod.fst = ls := by
  simp [unmarked, Function.comp_def]

variable {ms} in
/-- Where names are put in for marked lexemes only, the marks make no difference. -/
theorem respelledMarks_eq_map (h : ∀ l, (l, false) ∈ ms → ρ l.span.offset = none) :
    respelledMarks ρ ms = (ms.map Prod.fst).map (Lexeme.respelled ρ) := by
  rw [respelledMarks, List.map_map]
  refine List.map_congr_left fun x hx => ?_
  rcases x with ⟨l, _ | _⟩
  · show l.token = l.respelled ρ
    unfold Lexeme.respelled
    rw [h l hx]
    cases l.token <;> rfl
  · rfl

end Marked

/-- Names are put in for the marked lexemes of a list part by part. -/
theorem tokensOf_flatMap {τ υ : Type} {f : υ → List Lexeme} {r : τ → υ} {g : τ → List (Lexeme × Bool)}
    (h : ∀ x, tokensOf (f (r x)) = respelledMarks ρ (g x)) (xs : List τ) :
    tokensOf ((xs.map r).flatMap f) = respelledMarks ρ (xs.flatMap g) := by
  simp only [tokensOf, respelledMarks, List.map_flatMap, List.flatMap_map] at h ⊢
  simp only [h]

def ActionTree.marked : ActionTree → List (Lexeme × Bool)
  | send word target => [(word.lexeme, false), (target.lexeme, true)]
  | call word target left args right =>
    (word.lexeme, false) :: (target.lexeme, true) ::
      unmarked (left.lexeme :: (optionalLexemes (Separated.lexemes OrTree.lexemes) args ++ [right.lexeme]))
  | goto word target => [(word.lexeme, false), (target.lexeme, true)]

def StatementTree.marked (t : StatementTree) : List (Lexeme × Bool) :=
  t.action.marked ++ unmarked (optionalLexemes GuardTree.lexemes t.guard)

def MessageTree.marked (t : MessageTree) : List (Lexeme × Bool) :=
  (t.word.lexeme, false) :: (t.name.lexeme, false) :: (t.sender.lexeme, true) :: (t.arrow.lexeme, false) ::
    (t.receiver.lexeme, true) ::
      unmarked (t.left.lexeme :: (t.fields.flatMap (closedLexemes BindingTree.lexemes) ++ [t.right.lexeme]))

def BlockTree.marked (t : BlockTree) : List (Lexeme × Bool) :=
  unmarked (optionalLeaf t.entry ++ [t.word.lexeme, t.name.lexeme, t.left.lexeme]) ++
    (t.statements.flatMap (fun x => x.1.marked ++ unmarked (optionalLeaf x.2)) ++ [(t.right.lexeme, false)])

def DeclarationTree.marked : DeclarationTree → List (Lexeme × Bool)
  | .message tree => tree.marked
  | .block tree => tree.marked
  | tree => unmarked tree.lexemes

def TransactionTree.marked (t : TransactionTree) : List (Lexeme × Bool) :=
  unmarked t.header.lexemes ++ (t.declarations.flatMap DeclarationTree.marked ++ [(t.right.lexeme, false)])

/-- The lexemes of a derivation, those of references marked. -/
def SchemaTree.marked (t : SchemaTree) : List (Lexeme × Bool) := t.transactions.flatMap TransactionTree.marked

theorem StatementTree.map_fst_marked (t : StatementTree) : t.marked.map Prod.fst = t.lexemes := by
  rcases t with ⟨action, guard⟩
  cases action <;> simp [marked, lexemes, ActionTree.marked, ActionTree.lexemes]

theorem StatementTree.tokens_renamed (t : StatementTree) : tokensOf (t.renamed ρ).lexemes = respelledMarks ρ t.marked := by
  rcases t with ⟨action, guard⟩
  cases action <;>
    simp [marked, renamed, lexemes, ActionTree.marked, ActionTree.renamed, ActionTree.lexemes, NameLeaf.token_renamed]

theorem BlockTree.map_fst_marked (t : BlockTree) : t.marked.map Prod.fst = t.lexemes := by
  simp [marked, lexemes, List.map_flatMap, StatementTree.map_fst_marked]
  rfl

theorem BlockTree.tokens_renamed (t : BlockTree) : tokensOf (t.renamed ρ).lexemes = respelledMarks ρ t.marked := by
  have hstatement : ∀ x : StatementTree × Option (SymbolLeaf .semicolon),
      tokensOf (closedLexemes StatementTree.lexemes (x.1.renamed ρ, x.2)) =
        respelledMarks ρ (x.1.marked ++ unmarked (optionalLeaf x.2)) := by
    intro x
    simp [closedLexemes, StatementTree.tokens_renamed]
  have hstatements := tokensOf_flatMap ρ hstatement t.statements
  simp [marked, renamed, lexemes, hstatements]

theorem DeclarationTree.map_fst_marked (t : DeclarationTree) : t.marked.map Prod.fst = t.lexemes := by
  cases t with
  | actor tree => simp [marked, lexemes]
  | message tree => simp [marked, lexemes, MessageTree.marked, MessageTree.lexemes]
  | function tree => simp [marked, lexemes]
  | block tree => exact tree.map_fst_marked

theorem DeclarationTree.tokens_renamed (t : DeclarationTree) : tokensOf (t.renamed ρ).lexemes = respelledMarks ρ t.marked := by
  cases t with
  | actor tree => simp [marked, renamed, lexemes]
  | message tree =>
    simp [marked, renamed, lexemes, MessageTree.marked, MessageTree.renamed, MessageTree.lexemes, NameLeaf.token_renamed]
  | function tree => simp [marked, renamed, lexemes]
  | block tree => exact tree.tokens_renamed ρ

theorem TransactionTree.map_fst_marked (t : TransactionTree) : t.marked.map Prod.fst = t.lexemes := by
  simp [marked, lexemes, List.map_flatMap, DeclarationTree.map_fst_marked]

theorem TransactionTree.tokens_renamed (t : TransactionTree) : tokensOf (t.renamed ρ).lexemes = respelledMarks ρ t.marked := by
  have hdecls := tokensOf_flatMap ρ (DeclarationTree.tokens_renamed ρ) t.declarations
  simp [marked, renamed, lexemes, hdecls]

theorem SchemaTree.map_fst_marked (t : SchemaTree) : t.marked.map Prod.fst = t.lexemes := by
  simp [marked, lexemes, List.map_flatMap, TransactionTree.map_fst_marked]

/-- Renaming a derivation is putting names into its marked lexemes. -/
theorem SchemaTree.tokens_renamed (t : SchemaTree) : tokensOf (t.renamed ρ).lexemes = respelledMarks ρ t.marked :=
  tokensOf_flatMap ρ (TransactionTree.tokens_renamed ρ) t.transactions

/-! ## References -/

/-- What a lexeme and a reference have in common if the one is the other. -/
abbrev Lexeme.spot (l : Lexeme) : Token × Span := (l.token, l.span)

abbrev Reference.spot (r : Reference) : Token × Span := (.name r.name, r.span)

def DeclarationTree.references : DeclarationTree → List Reference
  | .message tree => [tree.sender.reference, tree.receiver.reference]
  | .block tree => tree.block.statements.map (·.action.target)
  | _ => []

theorem DeclarationTree.spots_marked (t : DeclarationTree) :
    (marks t.marked).map Lexeme.spot = t.references.map Reference.spot := by
  cases t with
  | actor tree => simp [marked, references]
  | message tree =>
    simp [marked, references, MessageTree.marked, NameLeaf.reference, tree.sender.holds, tree.receiver.holds]
  | function tree => simp [marked, references]
  | block tree =>
    have hstatement : ∀ t : StatementTree, (marks t.marked).map Lexeme.spot = [t.statement.action.target.spot] := by
      rintro ⟨action, guard⟩
      cases action <;> simp [StatementTree.marked, ActionTree.marked, StatementTree.statement, ActionTree.action,
        Action.target, NameLeaf.reference, Leaf.holds]
    simp [marked, references, BlockTree.marked, BlockTree.block, marks_flatMap, List.map_flatMap, hstatement,
      Function.comp_def]
    rw [List.map_eq_flatMap]

/-- The references of a transaction are those in its declarations, sorted by what they are in. -/
theorem TransactionTree.references_perm (t : TransactionTree) :
    (t.transaction.references.map Prod.snd).Perm (t.declarations.flatMap DeclarationTree.references) := by
  have hreferences : t.transaction.references.map Prod.snd =
      (t.declarations.filterMap DeclarationTree.message?).flatMap (fun m => [m.sender, m.receiver]) ++
        ((t.declarations.filterMap DeclarationTree.block?).flatMap fun b => b.statements.map (·.action.target)) := by
    simp [Transaction.references, Transaction.statements, transaction, List.map_flatMap, Function.comp_def]
  -- declarations of other kinds may stand between, so this holds up to order only
  rw [hreferences]
  induction t.declarations with
  | nil => exact .nil
  | cons d ds ih =>
    cases d with
    | actor tree => exact ih
    | function tree => exact ih
    | message tree => exact (ih.cons _).cons _
    | block tree => exact (List.perm_append_comm_assoc _ _ _).trans (ih.append_left _)

def Schema.references (s : Schema) : List (Transaction × Category × Reference) :=
  s.transactions.flatMap fun tx => tx.references.map (tx, ·)

/-- The marked lexemes of a derivation are the references of its schema. -/
theorem SchemaTree.spots_marked (t : SchemaTree) :
    ((marks t.marked).map Lexeme.spot).Perm (t.schema.references.map fun y => y.2.2.spot) := by
  have htx : ∀ t : TransactionTree, ((marks t.marked).map Lexeme.spot).Perm
      ((t.transaction.references.map Prod.snd).map Reference.spot) := by
    intro t
    refine .trans (.of_eq ?_) (t.references_perm.symm.map _)
    simp [TransactionTree.marked, marks_flatMap, List.map_flatMap, DeclarationTree.spots_marked]
  unfold marked Schema.references schema
  induction t.transactions with
  | nil => exact .nil
  | cons t ts ih =>
    rw [List.flatMap_cons, marks_append, List.map_append, List.map_cons, List.flatMap_cons, List.map_append, List.map_map]
    refine .append ?_ ih
    have := htx t
    rwa [List.map_map] at this

end Parley
