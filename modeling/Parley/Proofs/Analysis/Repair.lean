/-
What putting in the fixes of a transaction does to its analysis. Renaming references leaves every
declaration as it is, and so the namespaces and all that is read off declarations. A fixed reference
names something declared, and what was resolved stays so. Edges of the block graph that led nowhere
lead to a block, so no block gets out of reach; and a call gets a function, which it may not fit.
-/
import Parley.Proofs.Analysis.Reachability
import Parley.Proofs.Lint.Fixes

namespace Parley

/-! ## Lists -/

theorem filterMap_sublist_filterMap {α β : Type} {f g : α → Option β} {l : List α}
    (h : ∀ a ∈ l, ∀ b, g a = some b → f a = some b) : (l.filterMap g).Sublist (l.filterMap f) := by
  induction l with
  | nil => exact .slnil
  | cons a l ih =>
    have ih := ih fun a' ha' => h a' (List.mem_cons_of_mem _ ha')
    rw [List.filterMap_cons, List.filterMap_cons]
    cases hg : g a with
    | none =>
      cases f a with
      | none => exact ih
      | some _ => exact ih.cons _
    | some b =>
      rw [h a List.mem_cons_self b hg]
      exact ih.cons_cons _

/-- What is collected in one of two ways, but never in both, is collected in two passes. -/
theorem filterMap_perm_append {α β : Type} {f g h : α → Option β} {l : List α}
    (hl : ∀ a ∈ l, (h a = f a ∧ g a = none) ∨ (h a = g a ∧ f a = none)) :
    (l.filterMap h).Perm (l.filterMap f ++ l.filterMap g) := by
  induction l with
  | nil => exact .nil
  | cons a l ih =>
    have ih := ih fun a' ha' => hl a' (List.mem_cons_of_mem _ ha')
    rw [List.filterMap_cons, List.filterMap_cons, List.filterMap_cons]
    rcases hl a List.mem_cons_self with ⟨heq, hnone⟩ | ⟨heq, hnone⟩
    · rw [heq, hnone]
      cases f a with
      | none => exact ih
      | some b => exact ih.cons b
    · rw [heq, hnone]
      cases g a with
      | none => exact ih
      | some b => exact (ih.cons b).trans List.perm_middle.symm

/-! ## Declared names -/

theorem Namespace.names_declareAll {category : Category} {ns : Namespace} {decls : List Declaration} {name : String}
    (hstep : ns.InStep) (h : name ∈ ns.names ∨ ∃ d ∈ decls, d.name = name) :
    name ∈ (ns.declareAll category decls).1.names := by
  induction decls generalizing ns with
  | nil => exact h.elim id fun ⟨_, hd, _⟩ => nomatch hd
  | cons d decls ih =>
    have hcases : name ∈ ns.names ∨ d.name = name ∨ ∃ d ∈ decls, d.name = name := by
      simpa using h
    unfold declareAll
    cases hdeclare : ns.declare d.name d.span with
    | error first =>
      -- the name is taken, so declaring it again adds nothing
      apply ih hstep
      rcases hcases with h | rfl | h
      · exact .inl h
      · exact .inl (hstep.contains_iff.1 (contains_of_declare_error hdeclare))
      · exact .inr h
    | ok ns' =>
      apply ih (hstep.declare hdeclare)
      rw [names_of_declare hdeclare]
      rcases hcases with h | rfl | h
      · exact .inl (List.mem_append_left _ h)
      · exact .inl (List.mem_append_right _ (List.mem_singleton_self _))
      · exact .inr h

theorem Transaction.resolves_iff {tx : Transaction} {category : Category} {name : String} :
    tx.symbols.resolves category name = true ↔ ∃ d ∈ tx.declared category, d.name = name := by
  have hns : tx.symbols.namespaceOf category = (tx.declareAll category).1 := by cases category <;> rfl
  rw [Symbols.resolves, (tx.inStep_symbols category).contains_iff, hns]
  constructor
  · exact fun h => (Namespace.mem_names_declareAll h).resolve_left List.not_mem_nil
  · exact fun h => Namespace.names_declareAll Namespace.inStep_empty (.inr h)

/-! ## Declarations of a renamed transaction -/

section Renamed

variable (ρ : Renaming)

def Declaration.renamed : Declaration → Declaration
  | .message decl => .message (decl.renamed ρ)
  | .block decl => .block (decl.renamed ρ)
  | decl => decl

@[simp] theorem Declaration.name_renamed (d : Declaration) : (d.renamed ρ).name = d.name := by
  cases d <;> rfl

@[simp] theorem Declaration.span_renamed (d : Declaration) : (d.renamed ρ).span = d.span := by
  cases d <;> rfl

@[simp] theorem Declaration.category_renamed (d : Declaration) : (d.renamed ρ).category = d.category := by
  cases d <;> rfl

theorem Namespace.declareAll_renamed (category : Category) (ns : Namespace) (decls : List Declaration) :
    ns.declareAll category (decls.map (Declaration.renamed ρ)) = ns.declareAll category decls := by
  induction decls generalizing ns with
  | nil => rfl
  | cons d decls ih =>
    rw [List.map_cons]
    unfold declareAll
    simp only [Declaration.name_renamed, Declaration.span_renamed, ih]

namespace Transaction

variable (tx : Transaction)

theorem declared_renamed (category : Category) :
    (tx.renamed ρ).declared category = (tx.declared category).map (Declaration.renamed ρ) := by
  have hdeclarations : (tx.renamed ρ).declarations = tx.declarations.map (Declaration.renamed ρ) := by
    simp only [declarations, renamed, List.map_append, List.map_map]
    rfl
  simp only [declared, hdeclarations, List.filter_map, Function.comp_def, Declaration.category_renamed]

theorem declareAll_renamed (category : Category) : (tx.renamed ρ).declareAll category = tx.declareAll category := by
  rw [declareAll, declared_renamed, Namespace.declareAll_renamed, declareAll]

@[simp] theorem symbols_renamed : (tx.renamed ρ).symbols = tx.symbols := by
  simp only [symbols, declareAll_renamed]

theorem duplicateIssues_renamed : (tx.renamed ρ).duplicateIssues = tx.duplicateIssues := by
  simp only [duplicateIssues, repetitions, declareAll_renamed]

theorem statements_renamed : (tx.renamed ρ).statements = tx.statements.map (Statement.renamed ρ) := by
  simp only [statements, renamed, List.flatMap_map, List.map_flatMap]
  rfl

theorem references_renamed : (tx.renamed ρ).references = tx.references.map fun x => (x.1, x.2.renamed ρ) := by
  have hcategory : ∀ a : Action, (a.renamed ρ).targetCategory = a.targetCategory := fun a => by cases a <;> rfl
  have htarget : ∀ a : Action, (a.renamed ρ).target = a.target.renamed ρ := fun a => by cases a <;> rfl
  unfold references
  rw [statements_renamed]
  simp only [renamed, List.flatMap_map, List.map_append, List.map_flatMap, List.map_map, Function.comp_def,
    Statement.renamed, hcategory, htarget, List.map_cons, List.map_nil]
  rfl

theorem hasTransitions_renamed : (tx.renamed ρ).hasTransitions = tx.hasTransitions := by
  have hgoto : ∀ a : Action, (a.renamed ρ).gotoTarget?.isSome = a.gotoTarget?.isSome := fun a => by cases a <;> rfl
  simp only [hasTransitions, statements_renamed, List.any_map, Function.comp_def, Statement.renamed, hgoto]

theorem entryNames_renamed : (tx.renamed ρ).entryNames = tx.entryNames := by
  simp only [entryNames, renamed, List.filter_map, List.map_map, Function.comp_def]
  rfl

theorem typeIssues_renamed : (tx.renamed ρ).typeIssues = tx.typeIssues := by
  simp only [typeIssues, types, renamed, List.flatMap_map]
  rfl

theorem namingIssues_renamed : (tx.renamed ρ).namingIssues = tx.namingIssues := by
  simp only [namingIssues, declaredNames, renamed, List.flatMap_map, List.map_map]
  rfl

theorem expectedUses_renamed : (tx.renamed ρ).expectedUses = tx.expectedUses.map (Declaration.renamed ρ) := by
  simp only [expectedUses, hasTransitions_renamed]
  simp only [renamed, List.map_append, List.map_map, List.filter_map, Function.comp_def]
  congr 2
  split
  · rw [List.map_map]
    rfl
  · rfl

end Transaction

end Renamed

/-! ## References -/

/-- A renaming that puts just its fixes into the references of a transaction. -/
def Renaming.Fixes (ρ : Renaming) (tx : Transaction) : Prop :=
  ∀ x ∈ tx.references, ρ x.2.span.offset = (tx.fixFor? x).map (·.text)

namespace Transaction

/-- Only an unresolved reference has a fix, and the fix resolves. -/
theorem resolves_of_fixFor? {tx : Transaction} {x : Category × Reference} {e : Edit} (h : tx.fixFor? x = some e) :
    tx.symbols.resolves x.1 x.2.name = false ∧ tx.symbols.resolves x.1 e.text = true := by
  refine ⟨?_, resolves_iff.2 (fixFor?_some h).2.2⟩
  rw [Bool.eq_false_iff]
  intro hresolves
  rw [fixFor?, if_pos hresolves] at h
  cases h

theorem fixFor?_of_resolves {tx : Transaction} {x : Category × Reference} (h : tx.symbols.resolves x.1 x.2.name = true) :
    tx.fixFor? x = none := if_pos h

section Fixes

variable {ρ : Renaming} {tx : Transaction} (hfixes : ρ.Fixes tx) {x : Category × Reference} (hx : x ∈ tx.references)

include hfixes hx

theorem name_renamed : (x.2.renamed ρ).name = ((tx.fixFor? x).map (·.text)).getD x.2.name := by
  rw [Reference.renamed, hfixes x hx]

theorem renamed_of_unfixed (h : tx.fixFor? x = none) : x.2.renamed ρ = x.2 := by
  rw [Reference.renamed, hfixes x hx, h]
  rfl

theorem name_of_fixed {e : Edit} (h : tx.fixFor? x = some e) : (x.2.renamed ρ).name = e.text := by
  rw [name_renamed hfixes hx, h]
  rfl

/-- Resolved are the references that were, and the fixed ones. -/
theorem resolves_renamed : tx.symbols.resolves x.1 (x.2.renamed ρ).name = true ↔
    tx.symbols.resolves x.1 x.2.name = true ∨ tx.fixFor? x ≠ none := by
  cases h : tx.fixFor? x with
  | none =>
    rw [renamed_of_unfixed hfixes hx h]
    simp
  | some e =>
    rw [name_of_fixed hfixes hx h]
    simp [(resolves_of_fixFor? h).2]

/-- What is unresolved after the fixes had none. -/
theorem fixFor?_renamed : (tx.renamed ρ).fixFor? (x.1, x.2.renamed ρ) = none := by
  cases h : tx.fixFor? x with
  | none =>
    rw [renamed_of_unfixed hfixes hx h, ← h]
    simp only [fixFor?, fixOf?, symbols_renamed]
  | some e =>
    apply fixFor?_of_resolves
    rw [symbols_renamed, resolves_renamed hfixes hx, h]
    exact .inr (Option.some_ne_none e)

omit hx

/-- The references left unresolved are those without a fix. -/
theorem referenceIssues_renamed :
    (tx.renamed ρ).referenceIssues = tx.referenceIssues.filter fun issue => (tx.fixOf? issue).isNone := by
  unfold referenceIssues
  rw [references_renamed, symbols_renamed, List.filterMap_map, List.filter_filterMap]
  refine List.filterMap_congr fun x hx => ?_
  simp only [Function.comp_apply]
  by_cases hresolves : tx.symbols.resolves x.1 x.2.name = true
  · rw [if_pos hresolves, if_pos ((resolves_renamed hfixes hx).2 (.inl hresolves))]
    rfl
  · have hfix : tx.fixFor? x = tx.fixOf? ⟨.unresolved x.1 x.2.name, x.2.span⟩ := if_neg hresolves
    cases h : tx.fixFor? x with
    | none =>
      rw [renamed_of_unfixed hfixes hx h, if_neg hresolves]
      rw [Option.filter_some, ← hfix, h]
      rfl
    | some e =>
      rw [if_neg hresolves, if_pos ((resolves_renamed hfixes hx).2 (.inr (by rw [h]; exact Option.some_ne_none e)))]
      rw [Option.filter_some, ← hfix, h]
      rfl

/-! ## Control flow -/

omit hfixes in
theorem mem_gotoEdges {a b : String} : (a, b) ∈ tx.gotoEdges ↔
    ∃ block ∈ tx.blocks, block.name = a ∧ ∃ s ∈ block.statements, s.action.gotoTarget? = some b := by
  simp only [gotoEdges, List.mem_flatMap, List.mem_map, List.mem_filterMap, Prod.mk.injEq]
  constructor
  · rintro ⟨block, hblock, _, hs, rfl, rfl⟩
    exact ⟨block, hblock, rfl, hs⟩
  · rintro ⟨block, hblock, rfl, hs⟩
    exact ⟨block, hblock, b, hs, rfl, rfl⟩

omit hfixes in
theorem resolves_block {block : Block} (h : block ∈ tx.blocks) : tx.symbols.resolves .block block.name = true := by
  refine resolves_iff.2 ⟨.block block, ?_, rfl⟩
  simp [declared, declarations, h, Declaration.category]

omit hfixes in
theorem target_mem_references {s : Statement} (h : s ∈ tx.statements) :
    (s.action.targetCategory, s.action.target) ∈ tx.references :=
  List.mem_append_right _ (List.mem_map_of_mem h)

/-- An edge to a block stays. -/
theorem gotoEdges_renamed {a b : String} (hb : tx.symbols.resolves .block b = true) (h : (a, b) ∈ tx.gotoEdges) :
    (a, b) ∈ (tx.renamed ρ).gotoEdges := by
  obtain ⟨block, hblock, rfl, s, hs, hgoto⟩ := mem_gotoEdges.1 h
  refine mem_gotoEdges.2 ⟨block.renamed ρ, List.mem_map_of_mem hblock, rfl, s.renamed ρ, List.mem_map_of_mem hs, ?_⟩
  have hmem := target_mem_references (List.mem_flatMap.2 ⟨block, hblock, hs⟩)
  obtain ⟨action, guard, span⟩ := s
  cases action with
  | goto target =>
    cases hgoto
    have hunfixed := renamed_of_unfixed hfixes hmem (fixFor?_of_resolves hb)
    exact congrArg (some ·.name) hunfixed
  | _ => cases hgoto

/-- No block gets out of reach. -/
theorem reachable_renamed {block : Block} (hblock : block ∈ tx.blocks) (h : block.name ∈ tx.reachable) :
    block.name ∈ (tx.renamed ρ).reachable := by
  obtain ⟨start, hstart, hchain⟩ := mem_reachable.1 h
  refine mem_reachable.2 ⟨start, by rwa [entryNames_renamed], ?_⟩
  clear h hstart
  induction hchain using Relation.ReflTransGen.head_induction_on with
  | refl => exact .refl
  | head hedge hrest ih =>
    -- the target of an edge on the way is the last block, or has an edge itself
    rename_i a c
    have hc : tx.symbols.resolves .block c = true := by
      rcases hrest.cases_head with rfl | ⟨d, hd, -⟩
      · exact resolves_block hblock
      · obtain ⟨block', hblock', rfl, -⟩ := mem_gotoEdges.1 hd
        exact resolves_block hblock'
    exact .head (gotoEdges_renamed hfixes hc hedge) ih

/-- The flaws of control flow are the same, but for blocks that came into reach. -/
theorem flowIssues_renamed : (tx.renamed ρ).flowIssues = tx.flowIssues ∨
    (tx.renamed ρ).flowIssues.Sublist tx.flowIssues ∧ ∀ issue ∈ tx.flowIssues, issue.isError = false := by
  have hentry : (tx.renamed ρ).blocks.any (·.entry) = tx.blocks.any (·.entry) := by
    simp only [renamed, List.any_map]
    rfl
  unfold flowIssues
  rw [hasTransitions_renamed, hentry]
  split
  · exact .inl rfl
  split
  · exact .inl rfl
  refine .inr ⟨?_, ?_⟩
  · have hblocks : (tx.renamed ρ).blocks = tx.blocks.map (Block.renamed ρ) := rfl
    rw [hblocks, List.filterMap_map]
    refine filterMap_sublist_filterMap fun block hblock issue h => ?_
    have hname : (block.renamed ρ).name = block.name := rfl
    simp only [Function.comp_apply, hname, List.contains_iff_mem] at h ⊢
    split at h
    · cases h
    · rename_i hout
      rw [if_neg fun hin => hout (reachable_renamed hfixes hblock hin)]
      exact h
  · intro issue hissue
    obtain ⟨block, -, h⟩ := List.mem_filterMap.1 hissue
    split at h <;> cases h
    rfl

/-! ## Calls -/

omit hfixes in
theorem function?_none {name : String} (h : tx.symbols.resolves .function name = false) : tx.function? name = none := by
  refine List.find?_eq_none.2 fun f hf heq => ?_
  rw [Bool.eq_false_iff] at h
  refine h (resolves_iff.2 ⟨.function f, ?_, beq_iff_eq.1 heq⟩)
  simp [declared, declarations, hf, Declaration.category]

/-- The issue of a fixed call that does not fit the function put in. -/
def misfit? (tx : Transaction) (s : Statement) : Option Issue :=
  match s.action with
  | .call ref args =>
    (tx.fixFor? (.function, ref)).bind fun e => (tx.function? e.text).bind fun f =>
      if f.params.length = args.length then none
      else some ⟨.arity e.text f.params.length args.length, s.span⟩
  | _ => none

/-- A fixed call had no function that it could not fit; the others have the functions they had. -/
theorem arityIssues_renamed :
    (tx.renamed ρ).arityIssues.Perm (tx.arityIssues ++ tx.statements.filterMap tx.misfit?) := by
  unfold arityIssues
  rw [statements_renamed, List.filterMap_map]
  refine filterMap_perm_append fun s hs => ?_
  have hmem := target_mem_references hs
  obtain ⟨action, guard, span⟩ := s
  cases action with
  | call ref args =>
    have hfunction : (tx.renamed ρ).function? = tx.function? := rfl
    simp only [Function.comp_apply, Statement.renamed, Action.renamed, hfunction, misfit?]
    cases h : tx.fixFor? (.function, ref) with
    | none =>
      have hunfixed : ref.renamed ρ = ref := renamed_of_unfixed hfixes hmem h
      rw [hunfixed]
      exact .inl ⟨rfl, rfl⟩
    | some e =>
      have hfixed : (ref.renamed ρ).name = e.text := name_of_fixed hfixes hmem h
      have hnone : tx.function? ref.name = none := function?_none (resolves_of_fixFor? h).1
      rw [hfixed, hnone]
      exact .inr ⟨rfl, rfl⟩
  | _ => exact .inl ⟨rfl, rfl⟩

/-! ## Unused declarations -/

/-- A declared name that was used still is. -/
theorem targetsOf_renamed {category : Category} {name : String} (hname : tx.symbols.resolves category name = true)
    (h : name ∈ tx.targetsOf category) : name ∈ (tx.renamed ρ).targetsOf category := by
  unfold targetsOf at h ⊢
  obtain ⟨s, hfound, rfl⟩ := List.mem_map.1 h
  obtain ⟨hs, hcategory⟩ := List.mem_filter.1 hfound
  rw [decide_eq_true_eq] at hcategory
  subst hcategory
  have hunfixed := renamed_of_unfixed hfixes (target_mem_references hs) (fixFor?_of_resolves hname)
  have htarget : (s.renamed ρ).action.target = s.action.target.renamed ρ := by
    rw [Statement.renamed]
    cases s.action <;> rfl
  refine List.mem_map.2 ⟨s.renamed ρ, List.mem_filter.2 ⟨?_, ?_⟩, ?_⟩
  · rw [statements_renamed]
    exact List.mem_map_of_mem hs
  · rw [decide_eq_true_eq, Statement.renamed]
    cases s.action <;> rfl
  · rw [htarget]
    exact congrArg (·.name) hunfixed

omit hfixes in
theorem expectedUses_subset : tx.expectedUses ⊆ tx.declarations := by
  intro d hd
  simp only [expectedUses, declarations, List.mem_append, List.mem_map] at hd ⊢
  rcases hd with (hd | hd) | hd
  · exact .inl (.inl (.inr hd))
  · split at hd
    · obtain ⟨block, hblock, rfl⟩ := List.mem_map.1 hd
      exact .inl (.inr ⟨block, (List.mem_filter.1 hblock).1, rfl⟩)
    · cases hd
  · exact .inr hd

theorem unusedIssues_renamed : (tx.renamed ρ).unusedIssues.Sublist tx.unusedIssues := by
  unfold unusedIssues
  rw [expectedUses_renamed, List.filterMap_map]
  refine filterMap_sublist_filterMap fun d hd issue h => ?_
  have hdeclared : tx.symbols.resolves d.category d.name = true := by
    refine resolves_iff.2 ⟨d, List.mem_filter.2 ⟨?_, decide_eq_true rfl⟩, rfl⟩
    exact expectedUses_subset hd
  simp only [Function.comp_apply, Declaration.category_renamed, Declaration.name_renamed, Declaration.span_renamed,
    List.contains_iff_mem] at h ⊢
  split at h
  · cases h
  · rename_i hunused
    rw [if_neg fun hused => hunused (targetsOf_renamed hfixes hdeclared hused)]
    exact h

end Fixes

end Transaction

/-! ## Sources -/

/-- References stand at different places, so the fixes of a source put a name into each of its
references that has one, and into no other. -/
theorem Renaming.fixes_of_parse {source : String} {s : Schema} {edits : List Edit} (hparse : parse source = .ok s)
    (hedits : edits.Perm (s.references.filterMap fun y => y.1.fixFor? y.2)) :
    ∀ tx ∈ s.transactions, (renamingOf edits).Fixes tx := by
  obtain ⟨t, htok, rfl⟩ := parse_ok_iff_derivation.1 hparse
  obtain ⟨xs, hcut, -, hplaced⟩ := Scan.tokenize_ok_iff.1 htok
  have hoffsets := nodup_offsets hcut hplaced
  intro tx htx x hx
  have hy : (tx, x) ∈ t.schema.references := List.mem_flatMap.2 ⟨tx, htx, List.mem_map_of_mem hx⟩
  cases hfix : tx.fixFor? x with
  | some e =>
    have he : e ∈ edits := hedits.symm.subset (List.mem_filterMap.2 ⟨_, hy, hfix⟩)
    have hstart : e.start = x.2.span.offset := by
      rw [(Transaction.fixFor?_some hfix).1]
      rfl
    rw [← hstart, renamingOf_eq (nodup_starts hoffsets hedits) he]
    rfl
  | none =>
    rw [Option.map_none, Option.eq_none_iff_forall_ne_some]
    intro word hword
    obtain ⟨e, he, hstart, -⟩ := exists_of_renamingOf hword
    obtain ⟨y', hy', hfix', -⟩ := exists_reference hedits he
    have hsame : y'.2.2.span.offset = x.2.span.offset := by
      rw [← hstart, (Transaction.fixFor?_some hfix').1]
      rfl
    cases List.inj_on_of_nodup_map (nodup_references hoffsets) hy' hy hsame
    rw [hfix] at hfix'
    cases hfix'

/-- A source with its fixes put in is parsed to the schema with the fixes put into its references. -/
theorem exists_repaired {source : String} {s : Schema} (hparse : parse source = .ok s) :
    ∃ s', parse (autofixed source) = .ok s' ∧ s'.bare = (s.renamed (renamingOf (fixesOf (lint source)))).bare ∧
      ∀ tx ∈ s.transactions, (renamingOf (fixesOf (lint source))).Fixes tx := by
  have hedits := s.fixes_perm
  rw [← lint_of_parse hparse] at hedits
  obtain ⟨fixed, s', -, -, happly, hparse', hbare, -⟩ := fixes_rename hparse hedits
  have hfixed : autofixed source = fixed := by
    rw [autofixed, happly]
    rfl
  rw [hfixed]
  exact ⟨s', hparse', hbare, Renaming.fixes_of_parse hparse hedits⟩

end Parley
