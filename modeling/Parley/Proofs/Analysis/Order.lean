/-
The order of declarations does not matter. What is found in a transaction depends on which names
are declared in each category and how often, and this stays the same when actors, messages, blocks
and functions are listed in another order: of every name all declarations but one are repeated. Two
things do depend on the order, the first of several functions of one name, which calls are checked
against, and the first of several names that are equally near to an unresolved one, which is only
ever a hint.
-/
import Parley.Proofs.Grammar.Parts
import Parley.Proofs.Lint.Bare
import Mathlib

namespace Parley

/-! ## Namespaces -/

namespace Namespace

variable (category : Category) (ns : Namespace) (decls : List Declaration)

/-- Every name that is declared gets into the namespace or is repeated. -/
theorem declareAll_perm :
    ((ns.declareAll category decls).1.names ++ (ns.declareAll category decls).2.map (·.name)).Perm
      (ns.names ++ decls.map (·.name)) := by
  induction decls generalizing ns with
  | nil => exact .refl _
  | cons d decls ih =>
    unfold declareAll
    cases hdeclare : ns.declare d.name d.span with
    | error first =>
      rw [List.map_cons, List.map_cons]
      exact List.perm_middle.trans (((ih ns).cons d.name).trans List.perm_middle.symm)
    | ok ns' =>
      have hmore := ih ns'
      rw [names_of_declare hdeclare, List.append_assoc] at hmore
      exact hmore

theorem category_declareAll : ∀ r ∈ (ns.declareAll category decls).2, r.category = category := by
  induction decls generalizing ns with
  | nil => exact fun r hr => nomatch hr
  | cons d decls ih =>
    unfold declareAll
    cases ns.declare d.name d.span with
    | error first => exact List.forall_mem_cons.2 ⟨rfl, ih ns⟩
    | ok ns' => exact ih ns'

end Namespace

namespace Transaction

/-- The names of a category that are declared again, once for each time. -/
def repeatedNames (tx : Transaction) (category : Category) : List String := (tx.declareAll category).2.map (·.name)

variable (tx : Transaction)

theorem namespaceOf_symbols (category : Category) : tx.symbols.namespaceOf category = (tx.declareAll category).1 := by
  cases category <;> rfl

/-- The names of a category and those declared again are together all names that are declared. -/
theorem names_perm (category : Category) :
    ((tx.symbols.namespaceOf category).names ++ tx.repeatedNames category).Perm ((tx.declared category).map (·.name)) := by
  rw [namespaceOf_symbols]
  exact Namespace.empty.declareAll_perm category (tx.declared category)

theorem nodup_names (category : Category) : (tx.symbols.namespaceOf category).names.Nodup := (tx.inStep_symbols category).nodup

theorem duplicateIssues_bare_eq : tx.duplicateIssues.map Issue.bare =
    Category.all.flatMap fun c => (tx.repeatedNames c).map fun name => ⟨.duplicate (.member c) name .nowhere, .nowhere⟩ := by
  simp only [duplicateIssues, repetitions, List.map_flatMap, repeatedNames, List.map_map]
  refine List.flatMap_congr fun category _ => List.map_congr_left fun r hr => ?_
  simp only [Function.comp_apply, Issue.bare, Violation.bare, Namespace.category_declareAll category _ _ r hr]

/-- Where no declaration is repeated, the names of each category are different. -/
theorem nodup_declared (h : tx.duplicateIssues = []) (category : Category) : ((tx.declared category).map (·.name)).Nodup := by
  have hrepeated : tx.repeatedNames category = [] := by
    have hall := tx.duplicateIssues_bare_eq
    rw [h, List.map_nil, eq_comm, List.flatMap_eq_nil_iff] at hall
    exact List.map_eq_nil_iff.1 (hall category (by cases category <;> decide))
  have hperm := tx.names_perm category
  rw [hrepeated, List.append_nil] at hperm
  exact hperm.nodup_iff.1 (tx.nodup_names category)

end Transaction

/-! ## Fixes -/

namespace Suggestion

/-- The other names that are near enough to a word to be put in. -/
def close (word : String) (names : List String) : List String :=
  names.filter fun name => decide (name ≠ word) && decide (Distance.between word name ≤ fixReach)

theorem close_ranked (word : String) (names : List String) :
    (((ranked word names).filter fun e => decide (e.2 ≤ fixReach)).map Prod.fst).Perm (close word names) := by
  refine (((List.mergeSort_perm _ _).filter _).map _).trans (.of_eq ?_)
  rw [List.filter_filter, List.filter_map, List.map_map, List.filter_filter, close]
  refine (List.map_id'' (fun _ => rfl) _).trans (List.filter_congr fun name _ => ?_)
  have hreach : Distance.between word name ≤ fixReach → Distance.between word name ≤ hintReach := by
    simp only [fixReach, hintReach]
    omega
  by_cases hfix : Distance.between word name ≤ fixReach <;> simp [hfix, hreach]

/-- If only one name is near enough to be put in, it is the nearest. -/
theorem head?_of_filter_eq_singleton {near : List (String × Nat)} {reach : Nat} {e : String × Nat}
    (hsorted : near.Pairwise fun a b => decide (a.2 ≤ b.2) = true) (h : near.filter (fun e => decide (e.2 ≤ reach)) = [e]) :
    near.head? = some e := by
  cases near with
  | nil => cases h
  | cons first rest =>
    have he : e ∈ (first :: rest).filter fun e => decide (e.2 ≤ reach) := h ▸ List.mem_singleton_self e
    obtain ⟨hmem, hreach⟩ := List.mem_filter.1 he
    have hfirst : first.2 ≤ e.2 := by
      rcases List.mem_cons.1 hmem with rfl | hrest
      · exact Nat.le_refl _
      · exact of_decide_eq_true (List.rel_of_pairwise_cons hsorted hrest)
    have hkept : decide (first.2 ≤ reach) = true := decide_eq_true (Nat.le_trans hfirst (of_decide_eq_true hreach))
    rw [List.filter_cons, if_pos hkept] at h
    rw [List.head?_cons, (List.cons.inj h).1]

/-- A name is put in without asking if it is the only one near enough, wherever it is declared. -/
theorem among_fixable_iff {word name : String} {names : List String} :
    among word names = some ⟨name, true⟩ ↔ close word names = [name] := by
  have hperm := close_ranked word names
  have hsorted : (ranked word names).Pairwise fun a b => decide (a.2 ≤ b.2) = true :=
    List.pairwise_mergeSort (fun a b c hab hbc => by simp only [decide_eq_true_eq] at *; omega)
      (fun a b => by simp only [Bool.or_eq_true, decide_eq_true_eq]; omega) _
  unfold among
  simp only [Option.map_eq_some_iff, mk.injEq, beq_iff_eq]
  constructor
  · rintro ⟨e, hhead, rfl, hone⟩
    obtain ⟨e', hclose⟩ := List.length_eq_one_iff.1 hone
    rw [head?_of_filter_eq_singleton hsorted hclose, Option.some.injEq] at hhead
    rw [hclose, hhead] at hperm
    exact hperm.symm.eq_singleton
  · intro hclose
    rw [hclose] at hperm
    obtain ⟨e, hranked, rfl⟩ := List.map_eq_singleton_iff.1 hperm.eq_singleton
    exact ⟨e, head?_of_filter_eq_singleton hsorted hranked, rfl, by rw [hranked]; rfl⟩

theorem fixable_among_perm {names names' : List String} (h : names.Perm names') (word : String) :
    (among word names).filter (·.fixable) = (among word names').filter (·.fixable) := by
  have hclose : (close word names).Perm (close word names') := h.filter _
  refine Option.ext fun s => ?_
  simp only [Option.filter_eq_some_iff]
  refine and_congr_left fun hfixable => ?_
  obtain ⟨name, fixable⟩ := s
  cases hfixable
  rw [among_fixable_iff, among_fixable_iff]
  constructor
  · intro hone
    rw [hone] at hclose
    exact hclose.symm.eq_singleton
  · intro hone
    rw [hone] at hclose
    exact hclose.eq_singleton

end Suggestion

theorem Diagnostic.fix_unresolved (symbols : Symbols) (category : Category) (name : String) (span : Span) :
    (Diagnostic.ofIssue symbols ⟨.unresolved category name, span⟩).fix =
      ((Suggestion.among name (symbols.namespaceOf category).names).filter (·.fixable)).map (.replacing span ·.name) := by
  simp only [ofIssue]
  cases Suggestion.among name (symbols.namespaceOf category).names with
  | none => rfl
  | some s =>
    dsimp only [Option.filter_some]
    split <;> rfl

/-! ## Reordered transactions -/

/-- What has a key is found in a list in any order, if keys are different. -/
theorem find?_perm {α : Type} {key : α → String} {xs ys : List α} (h : xs.Perm ys) (hkeys : (xs.map key).Nodup) (k : String) :
    xs.find? (key · == k) = ys.find? (key · == k) := by
  have hfind : ∀ zs : List α, (zs.map key).Nodup → ∀ a, zs.find? (key · == k) = some a ↔ a ∈ zs ∧ key a = k := by
    intro zs hzs a
    constructor
    · exact fun ha => ⟨List.mem_of_find?_eq_some ha, by simpa using List.find?_some (p := (key · == k)) ha⟩
    · rintro ⟨ha, hk⟩
      have hsome : (zs.find? (key · == k)).isSome := List.find?_isSome.2 ⟨a, ha, by simpa using hk⟩
      obtain ⟨b, hb⟩ := Option.isSome_iff_exists.1 hsome
      have hbk : key b = k := by simpa using List.find?_some (p := (key · == k)) hb
      rw [hb, List.inj_on_of_nodup_map hzs (List.mem_of_find?_eq_some hb) ha (hbk.trans hk.symm)]
  refine Option.ext fun a => ?_
  rw [hfind xs hkeys, hfind ys ((h.map key).nodup_iff.1 hkeys), h.mem_iff]

namespace Transaction

/-- A transaction with its declarations in another order within each category. -/
structure Reordered (tx tx' : Transaction) : Prop where
  name : tx.name = tx'.name
  description : tx.description = tx'.description
  span : tx.span = tx'.span
  actors : tx.actors.Perm tx'.actors
  messages : tx.messages.Perm tx'.messages
  blocks : tx.blocks.Perm tx'.blocks
  functions : tx.functions.Perm tx'.functions

namespace Reordered

variable {tx tx' : Transaction}

theorem symm (h : tx.Reordered tx') : tx'.Reordered tx :=
  ⟨h.name.symm, h.description.symm, h.span.symm, h.actors.symm, h.messages.symm, h.blocks.symm, h.functions.symm⟩

variable (h : tx.Reordered tx')

include h

theorem declared (category : Category) : (tx.declared category).Perm (tx'.declared category) := by
  rw [declared_eq, declared_eq]
  cases category with
  | actor => exact h.actors.map _
  | message => exact h.messages.map _
  | block => exact h.blocks.map _
  | function => exact h.functions.map _

theorem resolves (category : Category) (name : String) :
    tx.symbols.resolves category name = tx'.symbols.resolves category name := by
  rw [Bool.eq_iff_iff, resolves_iff, resolves_iff]
  exact exists_congr fun d => and_congr_left fun _ => (h.declared category).mem_iff

/-- A namespace has the same names, possibly in another order. -/
theorem names (category : Category) :
    (tx.symbols.namespaceOf category).names.Perm (tx'.symbols.namespaceOf category).names := by
  refine (List.perm_ext_iff_of_nodup (tx.nodup_names category) (tx'.nodup_names category)).2 fun name => ?_
  rw [← (tx.inStep_symbols category).contains_iff, ← (tx'.inStep_symbols category).contains_iff]
  exact Bool.eq_iff_iff.1 (h.resolves category name)

/-- As many declarations of a name are repeated, whichever of them is the first. -/
theorem repeatedNames (category : Category) : (tx.repeatedNames category).Perm (tx'.repeatedNames category) := by
  have hall := (tx.names_perm category).trans (((h.declared category).map _).trans (tx'.names_perm category).symm)
  exact (List.perm_append_left_iff _).1 (hall.trans ((h.names category).symm.append_right _))

theorem duplicateIssues : (tx.duplicateIssues.map Issue.bare).Perm (tx'.duplicateIssues.map Issue.bare) := by
  rw [duplicateIssues_bare_eq, duplicateIssues_bare_eq]
  exact List.Perm.flatMap_left _ fun category _ => (h.repeatedNames category).map _

theorem fix (issue : Issue) : (Diagnostic.ofIssue tx.symbols issue).fix = (Diagnostic.ofIssue tx'.symbols issue).fix := by
  obtain ⟨violation, span⟩ := issue
  cases violation with
  | unresolved category name =>
    rw [Diagnostic.fix_unresolved, Diagnostic.fix_unresolved, Suggestion.fixable_among_perm (h.names category)]
  | _ => rfl

theorem statements : tx.statements.Perm tx'.statements := h.blocks.flatMap_right _

theorem references : tx.references.Perm tx'.references :=
  (h.messages.flatMap_right _).append (h.statements.map _)

theorem referenceIssues : tx.referenceIssues.Perm tx'.referenceIssues := by
  have hcheck : ∀ x : Category × Reference, tx.dangling? x.1 x.2 = tx'.dangling? x.1 x.2 := by
    intro x
    rw [dangling?, h.resolves, dangling?]
  have hsame : tx.references.filterMap (fun x => tx.dangling? x.1 x.2) =
      tx.references.filterMap fun x => tx'.dangling? x.1 x.2 := List.filterMap_congr fun x _ => hcheck x
  exact (List.Perm.of_eq hsame).trans (h.references.filterMap _)

/-! ### Structure -/

theorem hasTransitions : tx.hasTransitions = tx'.hasTransitions := h.statements.any_eq

/-- The search takes edges in another order, but finds the same blocks. -/
theorem mem_reachable {name : String} : name ∈ tx.reachable ↔ name ∈ tx'.reachable := by
  have hentries : tx.entryNames.Perm tx'.entryNames := (h.blocks.filter _).map _
  have hedges : (fun a b => (a, b) ∈ tx.gotoEdges) = fun a b => (a, b) ∈ tx'.gotoEdges := by
    funext a b
    exact propext (h.blocks.flatMap_right _).mem_iff
  rw [Transaction.mem_reachable, Transaction.mem_reachable, hedges]
  exact exists_congr fun start => and_congr_left fun _ => hentries.mem_iff

theorem flowIssues : tx.flowIssues.Perm tx'.flowIssues := by
  unfold Transaction.flowIssues
  rw [h.hasTransitions, h.blocks.any_eq]
  split
  · exact .refl _
  split
  · rw [h.name, h.span]
  · refine (List.Perm.of_eq (List.filterMap_congr fun b _ => ?_)).trans (h.blocks.filterMap _)
    simp only [List.contains_iff_mem, h.mem_reachable]

theorem structureIssues : tx.structureIssues.Perm tx'.structureIssues := by
  unfold Transaction.structureIssues
  rw [h.actors.isEmpty_eq, h.messages.isEmpty_eq, h.name, h.span]
  exact h.flowIssues.append_left _

theorem typeIssues : tx.typeIssues.Perm tx'.typeIssues :=
  ((h.messages.flatMap_right _).append (h.functions.flatMap_right _)).flatMap_right _

/-! ### Calls -/

/-- Where the names of functions are different, a call has the same function. -/
theorem arityIssues (hfunctions : (tx.functions.map (·.name)).Nodup) : tx.arityIssues.Perm tx'.arityIssues := by
  have hfunction : tx.function? = tx'.function? := funext fun name => find?_perm h.functions hfunctions name
  unfold Transaction.arityIssues
  rw [hfunction]
  exact h.statements.filterMap _

theorem issues (hfunctions : (tx.functions.map (·.name)).Nodup) :
    (tx.issues.map Issue.bare).Perm (tx'.issues.map Issue.bare) := by
  simp only [Transaction.issues, List.map_append]
  exact (((h.duplicateIssues.append (h.referenceIssues.map _)).append (h.structureIssues.map _)).append
    ((h.arityIssues hfunctions).map _)).append (h.typeIssues.map _)

/-- Without errors no function is declared twice, so all issues are the same. -/
theorem errors_eq_nil (hok : errorsOf tx.issues = []) : errorsOf tx'.issues = [] := by
  have hwarnings : ∀ issue ∈ tx.issues, issue.isError = false := by
    simpa [errorsOf] using hok
  have hduplicates : tx.duplicateIssues = [] := by
    refine List.eq_nil_iff_forall_not_mem.2 fun issue hissue => ?_
    have hwarning := hwarnings issue (by simp [Transaction.issues, hissue])
    obtain ⟨r, -, rfl⟩ := List.mem_map.1 hissue
    cases hwarning
  have hfunctions : (tx.functions.map (·.name)).Nodup := by
    have hnodup := tx.nodup_declared hduplicates .function
    rwa [declared_eq, List.map_map] at hnodup
  have hseverity : ∀ issue : Issue, issue.bare.isError = issue.isError := fun issue => by
    rw [Issue.isError, Issue.bare, Violation.severity_bare, Issue.isError]
  refine List.filter_eq_nil_iff.2 fun issue' hissue' => ?_
  obtain ⟨issue, hissue, hbare⟩ := List.mem_map.1 ((h.issues hfunctions).symm.subset (List.mem_map_of_mem hissue'))
  rw [← hseverity issue', ← hbare, hseverity, hwarnings issue hissue]
  exact Bool.false_ne_true

/-! ### Style -/

theorem styleIssues : tx.styleIssues.Perm tx'.styleIssues := by
  have hnames : tx.declaredNames.Perm tx'.declaredNames :=
    (((h.actors.map _).append (h.messages.flatMap_right _)).append (h.blocks.map _)).append (h.functions.flatMap_right _)
  have huses : tx.expectedUses.Perm tx'.expectedUses := by
    unfold expectedUses
    rw [h.hasTransitions]
    refine ((h.messages.map _).append ?_).append (h.functions.map _)
    split
    · exact (h.blocks.filter _).map _
    · exact .refl _
  have htargets : ∀ category, (tx.targetsOf category).Perm (tx'.targetsOf category) := fun _ =>
    (h.statements.filter _).map _
  refine (hnames.filterMap _).append ?_
  refine (List.Perm.of_eq (List.filterMap_congr fun d _ => ?_)).trans (huses.filterMap _)
  rw [(htargets d.category).contains_eq]

end Reordered

end Transaction

/-- The order of declarations has no influence on whether a transaction is valid, on its flaws of
style and on the fixes of its unresolved references; nor has it on the issues, up to their places, if
no function is declared twice. -/
theorem declaration_order_irrelevant {tx tx' : Transaction} (h : tx.Reordered tx') :
    (errorsOf tx.issues = [] ↔ errorsOf tx'.issues = []) ∧
    ((tx.functions.map (·.name)).Nodup → (tx.issues.map Issue.bare).Perm (tx'.issues.map Issue.bare)) ∧
    tx.styleIssues.Perm tx'.styleIssues ∧
    tx.referenceIssues.Perm tx'.referenceIssues ∧
    ∀ issue, (Diagnostic.ofIssue tx.symbols issue).fix = (Diagnostic.ofIssue tx'.symbols issue).fix :=
  ⟨⟨h.errors_eq_nil, h.symm.errors_eq_nil⟩, h.issues, h.styleIssues, h.referenceIssues, h.fix⟩

/-- Of the actors `Ana`, `Ann` and, twice, `Bob`, two are equally near to the sender `An` of a message
and one is near to its receiver `Bo`. -/
def twins : Transaction where
  name := "T"
  description := none
  actors := [⟨"Ana", none, ⟨20, 3, 2, 9⟩⟩, ⟨"Ann", none, ⟨32, 3, 3, 9⟩⟩, ⟨"Bob", none, ⟨44, 3, 4, 9⟩⟩, ⟨"Bob", none, ⟨56, 3, 5, 9⟩⟩]
  messages := [⟨"Offer", ⟨"An", ⟨76, 2, 6, 17⟩⟩, ⟨"Bo", ⟨82, 2, 6, 23⟩⟩, [], ⟨70, 5, 6, 11⟩⟩]
  blocks := []
  functions := []
  span := ⟨12, 1, 1, 13⟩

/-- The same transaction with its actors in reverse. -/
def turnedTwins : Transaction := { twins with actors := twins.actors.reverse }

/-- The receiver is fixed in either order, and the sender in none, though its hint is another one. -/
theorem fixes_of_twins :
    (errorsOf twins.issues = [] ↔ errorsOf turnedTwins.issues = []) ∧
    (twins.issues.map Issue.bare).Perm (turnedTwins.issues.map Issue.bare) ∧
    twins.duplicateIssues ≠ turnedTwins.duplicateIssues ∧
    (twins.referenceIssues.map fun issue => (Diagnostic.ofIssue turnedTwins.symbols issue).fix) =
      [none, some ⟨82, 84, "Bob"⟩] ∧
    (twins.referenceIssues.map fun issue => (Diagnostic.ofIssue twins.symbols issue).suggestion) =
      [some "Ana", some "Bob"] ∧
    (twins.referenceIssues.map fun issue => (Diagnostic.ofIssue turnedTwins.symbols issue).suggestion) =
      [some "Ann", some "Bob"] := by
  have h : twins.Reordered turnedTwins :=
    ⟨rfl, rfl, rfl, (List.reverse_perm _).symm, .refl _, .refl _, .refl _⟩
  obtain ⟨hvalid, hissues, -, -, hfix⟩ := declaration_order_irrelevant h
  refine ⟨hvalid, hissues List.nodup_nil, by decide, ?_, by cbv, by cbv⟩
  simp only [← hfix]
  cbv

end Parley
