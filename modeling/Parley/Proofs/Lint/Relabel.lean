/-
Respelling what a schema declares, by place. In a derivation the lexemes of declared names, with those
of fields and parameters, are marked; putting names into the marked ones gives a derivation that
declares these names, and keeps everything else.
-/
import Parley.Lint.Style
import Parley.Proofs.Lint.Rename

namespace Parley

variable (ρ : Renaming)

/-! ## Derivations -/

def ActorTree.relabelled (t : ActorTree) : ActorTree := { t with name := t.name.renamed ρ }

def BindingTree.relabelled (t : BindingTree) : BindingTree := { t with name := t.name.renamed ρ }

def MessageTree.relabelled (t : MessageTree) : MessageTree :=
  { t with name := t.name.renamed ρ, fields := t.fields.map fun x => (x.1.relabelled ρ, x.2) }

def ParamsTree.relabelled (t : ParamsTree) : ParamsTree :=
  { t with params := ⟨t.params.first.relabelled ρ, t.params.more.map fun x => (x.1, x.2.relabelled ρ)⟩ }

def FunctionTree.relabelled (t : FunctionTree) : FunctionTree :=
  { t with name := t.name.renamed ρ, params := t.params.map (ParamsTree.relabelled ρ) }

def BlockTree.relabelled (t : BlockTree) : BlockTree := { t with name := t.name.renamed ρ }

def DeclarationTree.relabelled : DeclarationTree → DeclarationTree
  | .actor tree => .actor (tree.relabelled ρ)
  | .message tree => .message (tree.relabelled ρ)
  | .function tree => .function (tree.relabelled ρ)
  | .block tree => .block (tree.relabelled ρ)

def TransactionTree.relabelled (t : TransactionTree) : TransactionTree :=
  { t with declarations := t.declarations.map (DeclarationTree.relabelled ρ) }

def SchemaTree.relabelled (t : SchemaTree) : SchemaTree := ⟨t.first.relabelled ρ, t.more.map (TransactionTree.relabelled ρ)⟩

/-! ## Declared names -/

/-- The leaves of declared names, with what they name. -/
def DeclarationTree.declares : DeclarationTree → List (Named × NameLeaf)
  | .actor tree => [(.actor, tree.name)]
  | .message tree => (.message, tree.name) :: tree.fields.map fun x => (.field, x.1.name)
  | .function tree =>
    (.function, tree.name) :: tree.params.elim [] fun ps => ps.params.values fun b => (.parameter, b.name)
  | .block tree => [(.block, tree.name)]

def TransactionTree.declares (t : TransactionTree) : List (Named × NameLeaf) := t.declarations.flatMap DeclarationTree.declares

def SchemaTree.declares (t : SchemaTree) : List (Named × NameLeaf) := t.transactions.flatMap TransactionTree.declares

theorem DeclarationTree.declares_relabelled (t : DeclarationTree) :
    (t.relabelled ρ).declares = t.declares.map fun x => (x.1, x.2.renamed ρ) := by
  cases t with
  | actor tree => rfl
  | message tree => simp [declares, relabelled, MessageTree.relabelled, BindingTree.relabelled]
  | function tree =>
    rcases tree with ⟨_, _, _, _ | ps, _⟩
    · rfl
    · simp [declares, relabelled, FunctionTree.relabelled, ParamsTree.relabelled, BindingTree.relabelled, Separated.values]
  | block tree => rfl

/-- A derivation declares its names with those put in that have a place of their own. -/
theorem SchemaTree.declares_relabelled (t : SchemaTree) :
    (t.relabelled ρ).declares = t.declares.map fun x => (x.1, x.2.renamed ρ) := by
  have htransactions : (t.relabelled ρ).transactions = t.transactions.map (TransactionTree.relabelled ρ) := rfl
  rw [declares, htransactions, declares, List.flatMap_map, List.map_flatMap]
  congr 1
  funext u
  simp only [TransactionTree.declares, TransactionTree.relabelled, List.flatMap_map, List.map_flatMap,
    DeclarationTree.declares_relabelled]

def declaredEntry (x : Named × NameLeaf) : Named × String × Span := (x.1, x.2.value, x.2.lexeme.span)

theorem MessageTree.entries_message (t : MessageTree) :
    (.message, t.message.name, t.message.span) :: t.message.fields.map (fun f => (.field, f.name, f.span)) =
      (DeclarationTree.message t).declares.map declaredEntry := by
  simp only [DeclarationTree.declares, message, List.map_cons, List.map_map]
  rfl

theorem FunctionTree.entries_function (t : FunctionTree) :
    (.function, t.function.name, t.function.span) :: t.function.params.map (fun p => (.parameter, p.name, p.span)) =
      (DeclarationTree.function t).declares.map declaredEntry := by
  rcases t with ⟨_, _, _, _ | ps, _⟩
  · rfl
  · simp only [DeclarationTree.declares, function, Separated.values, Option.elim_some, List.map_cons, List.map_map]
    rfl

/-- A transaction declares what its derivation does, sorted by what it is. -/
theorem TransactionTree.declaredNames_perm (t : TransactionTree) :
    t.transaction.declaredNames.Perm (t.declares.map declaredEntry) := by
  -- declarations of all kinds may stand between each other, so each name is counted
  rw [List.perm_iff_count]
  intro a
  simp only [transaction, Transaction.declaredNames, declares, List.count_append, List.map_flatMap]
  induction t.declarations with
  | nil => rfl
  | cons d ds ih =>
    rw [List.flatMap_cons, List.count_append, ← ih]
    -- a declaration has its names in the part of its kind, and none in the others
    cases d with
    | actor tree =>
      have hentry : (DeclarationTree.actor tree).declares.map declaredEntry =
          [(.actor, tree.actor.name, tree.actor.span)] := rfl
      rw [hentry]
      simp only [DeclarationTree.actor?, DeclarationTree.message?, DeclarationTree.block?, DeclarationTree.function?,
        List.filterMap_cons, List.map_cons, List.count_cons, List.count_nil]
      omega
    | message tree =>
      rw [← tree.entries_message]
      simp only [DeclarationTree.actor?, DeclarationTree.message?, DeclarationTree.block?, DeclarationTree.function?,
        List.filterMap_cons, List.flatMap_cons, List.count_append]
      omega
    | function tree =>
      rw [← tree.entries_function]
      simp only [DeclarationTree.actor?, DeclarationTree.message?, DeclarationTree.block?, DeclarationTree.function?,
        List.filterMap_cons, List.flatMap_cons, List.count_append]
      omega
    | block tree =>
      have hentry : (DeclarationTree.block tree).declares.map declaredEntry =
          [(.block, tree.block.name, tree.block.span)] := rfl
      rw [hentry]
      simp only [DeclarationTree.actor?, DeclarationTree.message?, DeclarationTree.block?, DeclarationTree.function?,
        List.filterMap_cons, List.map_cons, List.count_cons, List.count_nil]
      omega

/-! ## Marked lexemes -/

def BindingTree.declaredMarked (t : BindingTree) : List (Lexeme × Bool) :=
  (t.name.lexeme, true) :: (t.colon.lexeme, false) :: unmarked t.type.lexemes

def ParamsTree.declaredMarked (t : ParamsTree) : List (Lexeme × Bool) :=
  t.params.first.declaredMarked ++ (t.params.more.flatMap fun x => (x.1.lexeme, false) :: x.2.declaredMarked) ++
    unmarked (optionalLeaf t.comma)

/-- The lexemes of a declaration, those of declared names marked. -/
def DeclarationTree.declaredMarked : DeclarationTree → List (Lexeme × Bool)
  | .actor t =>
    (t.word.lexeme, false) :: (t.name.lexeme, true) ::
      unmarked (t.left.lexeme :: (optionalLexemes RoleTree.lexemes t.role ++ [t.right.lexeme]))
  | .message t =>
    (t.word.lexeme, false) :: (t.name.lexeme, true) ::
      (unmarked [t.sender.lexeme, t.arrow.lexeme, t.receiver.lexeme, t.left.lexeme] ++
        ((t.fields.flatMap fun x => x.1.declaredMarked ++ unmarked (optionalLeaf x.2)) ++ [(t.right.lexeme, false)]))
  | .function t =>
    (t.word.lexeme, false) :: (t.name.lexeme, true) :: (t.left.lexeme, false) ::
      (t.params.elim [] ParamsTree.declaredMarked ++
        unmarked (t.right.lexeme :: (optionalLexemes ReturnsTree.lexemes t.returns ++ t.openBrace.lexeme ::
          (optionalLeaf t.description ++ [t.closeBrace.lexeme]))))
  | .block t =>
    unmarked (optionalLeaf t.entry) ++ (t.word.lexeme, false) :: (t.name.lexeme, true) ::
      unmarked (t.left.lexeme :: (t.statements.flatMap (closedLexemes StatementTree.lexemes) ++ [t.right.lexeme]))

def TransactionTree.declaredMarked (t : TransactionTree) : List (Lexeme × Bool) :=
  unmarked t.header.lexemes ++ (t.declarations.flatMap DeclarationTree.declaredMarked ++ [(t.right.lexeme, false)])

/-- The lexemes of a derivation, those of declared names marked. -/
def SchemaTree.declaredMarked (t : SchemaTree) : List (Lexeme × Bool) := t.transactions.flatMap TransactionTree.declaredMarked

theorem BindingTree.map_fst_declaredMarked (t : BindingTree) : t.declaredMarked.map Prod.fst = t.lexemes := by
  simp [declaredMarked, lexemes]

theorem ParamsTree.map_fst_declaredMarked (t : ParamsTree) : t.declaredMarked.map Prod.fst = t.lexemes := by
  simp [declaredMarked, lexemes, Separated.lexemes, List.map_flatMap, BindingTree.map_fst_declaredMarked]

theorem DeclarationTree.map_fst_declaredMarked (t : DeclarationTree) : t.declaredMarked.map Prod.fst = t.lexemes := by
  cases t with
  | actor t => simp [declaredMarked, lexemes, ActorTree.lexemes]
  | message t =>
    simp [declaredMarked, lexemes, MessageTree.lexemes, List.map_flatMap, BindingTree.map_fst_declaredMarked]
    rfl
  | function t =>
    rcases t with ⟨_, _, _, _ | ps, _⟩
    · simp [declaredMarked, lexemes, FunctionTree.lexemes, optionalLexemes]
    · simp [declaredMarked, lexemes, FunctionTree.lexemes, optionalLexemes, ps.map_fst_declaredMarked]
  | block t => simp [declaredMarked, lexemes, BlockTree.lexemes]

theorem TransactionTree.map_fst_declaredMarked (t : TransactionTree) : t.declaredMarked.map Prod.fst = t.lexemes := by
  simp [declaredMarked, lexemes, List.map_flatMap, DeclarationTree.map_fst_declaredMarked]

theorem SchemaTree.map_fst_declaredMarked (t : SchemaTree) : t.declaredMarked.map Prod.fst = t.lexemes := by
  simp [declaredMarked, lexemes, List.map_flatMap, TransactionTree.map_fst_declaredMarked]

theorem BindingTree.tokens_relabelled (t : BindingTree) :
    tokensOf (t.relabelled ρ).lexemes = respelledMarks ρ t.declaredMarked := by
  simp [declaredMarked, relabelled, lexemes, NameLeaf.token_renamed]

theorem ParamsTree.tokens_relabelled (t : ParamsTree) :
    tokensOf (t.relabelled ρ).lexemes = respelledMarks ρ t.declaredMarked := by
  have hitem : ∀ x : SymbolLeaf .comma × BindingTree,
      tokensOf (x.1.lexeme :: (x.2.relabelled ρ).lexemes) = respelledMarks ρ ((x.1.lexeme, false) :: x.2.declaredMarked) := by
    intro x
    simp [BindingTree.tokens_relabelled]
  have hmore := tokensOf_flatMap (f := fun x => x.1.lexeme :: x.2.lexemes) (r := fun x => (x.1, x.2.relabelled ρ)) ρ hitem
    t.params.more
  simp [declaredMarked, relabelled, lexemes, Separated.lexemes, hmore, BindingTree.tokens_relabelled]

theorem DeclarationTree.tokens_relabelled (t : DeclarationTree) :
    tokensOf (t.relabelled ρ).lexemes = respelledMarks ρ t.declaredMarked := by
  cases t with
  | actor t => simp [declaredMarked, relabelled, lexemes, ActorTree.relabelled, ActorTree.lexemes, NameLeaf.token_renamed]
  | message t =>
    have hfield : ∀ x : BindingTree × Option (SymbolLeaf .comma),
        tokensOf (closedLexemes BindingTree.lexemes (x.1.relabelled ρ, x.2)) =
          respelledMarks ρ (x.1.declaredMarked ++ unmarked (optionalLeaf x.2)) := by
      intro x
      simp [closedLexemes, BindingTree.tokens_relabelled]
    have hfields := tokensOf_flatMap ρ hfield t.fields
    simp [declaredMarked, relabelled, lexemes, MessageTree.relabelled, MessageTree.lexemes, NameLeaf.token_renamed, hfields]
  | function t =>
    rcases t with ⟨_, _, _, _ | ps, _⟩
    · simp [declaredMarked, relabelled, lexemes, FunctionTree.relabelled, FunctionTree.lexemes, NameLeaf.token_renamed,
        optionalLexemes]
    · simp [declaredMarked, relabelled, lexemes, FunctionTree.relabelled, FunctionTree.lexemes, NameLeaf.token_renamed,
        optionalLexemes, ParamsTree.tokens_relabelled]
  | block t => simp [declaredMarked, relabelled, lexemes, BlockTree.relabelled, BlockTree.lexemes, NameLeaf.token_renamed]

theorem TransactionTree.tokens_relabelled (t : TransactionTree) :
    tokensOf (t.relabelled ρ).lexemes = respelledMarks ρ t.declaredMarked := by
  have hdecls := tokensOf_flatMap ρ (DeclarationTree.tokens_relabelled ρ) t.declarations
  simp [declaredMarked, relabelled, lexemes, hdecls]

/-- Respelling the declared names of a derivation is putting names into its marked lexemes. -/
theorem SchemaTree.tokens_relabelled (t : SchemaTree) :
    tokensOf (t.relabelled ρ).lexemes = respelledMarks ρ t.declaredMarked :=
  tokensOf_flatMap ρ (TransactionTree.tokens_relabelled ρ) t.transactions

theorem DeclarationTree.marks_declaredMarked (t : DeclarationTree) :
    marks t.declaredMarked = t.declares.map fun x => x.2.lexeme := by
  have hbinding : ∀ t : BindingTree, marks t.declaredMarked = [t.name.lexeme] := by
    intro t
    simp [BindingTree.declaredMarked]
  cases t with
  | actor t => simp [declaredMarked, declares]
  | message t =>
    simp [declaredMarked, declares, marks_flatMap, hbinding, Function.comp_def]
    rw [List.map_eq_flatMap]
  | function t =>
    rcases t with ⟨_, _, _, _ | ps, _⟩
    · simp [declaredMarked, declares]
    · simp [declaredMarked, declares, ParamsTree.declaredMarked, marks_flatMap, hbinding, Separated.values, Function.comp_def]
      rw [List.map_eq_flatMap]
  | block t => simp [declaredMarked, declares]

/-- The marked lexemes of a derivation are those of what it declares. -/
theorem SchemaTree.marks_declaredMarked (t : SchemaTree) : marks t.declaredMarked = t.declares.map fun x => x.2.lexeme := by
  simp [declaredMarked, declares, TransactionTree.declaredMarked, TransactionTree.declares, marks_flatMap, List.map_flatMap,
    DeclarationTree.marks_declaredMarked]

end Parley
