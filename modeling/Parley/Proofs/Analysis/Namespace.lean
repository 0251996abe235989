/-
What namespaces hold, said by the declarations alone. After any declarations a namespace lists the names
declared, each once and at its first occurrence, and has the span of the first declaration for just the
names that it lists. So the declarations of a transaction are sorted out one by one: the first of a name
in its category is recorded, and every other is reported once, with the span recorded.
-/
import Parley.Proofs.Analysis.Order
import Mathlib

namespace Parley

/-! ## Declarations one after the other -/

namespace Namespace

/-- The namespace after a name is declared, which is the one before if the name is taken. -/
def add (ns : Namespace) (entry : String × Span) : Namespace :=
  match ns.declare entry.1 entry.2 with
  | .ok ns' => ns'
  | .error _ => ns

/-- The namespace after some names are declared one after the other. -/
def ofEntries (entries : List (String × Span)) : Namespace := entries.foldl add empty

/-- A namespace holds the first of some entries for each name. -/
structure Records (ns : Namespace) (entries : List (String × Span)) : Prop where
  inStep : ns.InStep
  order : ns.names = (entries.map Prod.fst).eraseDups
  first : ns.Knows Prod.fst Prod.snd entries

variable {ns : Namespace} {entries : List (String × Span)}

theorem find?_eq_none_iff {name : String} : entries.find? (·.1 == name) = none ↔ name ∉ entries.map Prod.fst := by
  simp only [List.find?_eq_none, beq_iff_eq, List.mem_map, not_exists, not_and]

theorem records_empty : empty.Records [] := ⟨inStep_empty, rfl, fun _ => rfl⟩

/-- What one declaration does: a name that is taken changes nothing, a new one comes last. -/
theorem Records.add (h : ns.Records entries) (entry : String × Span) : (ns.add entry).Records (entries ++ [entry]) := by
  unfold Namespace.add
  rcases h.first.declare entry with ⟨first, hfind, hdeclare, hsame⟩ | ⟨hfind, ns', hdeclare, hmore⟩
  · have htaken : entry.1 ∈ entries.map Prod.fst := by
      by_contra hnew
      rw [find?_eq_none_iff.2 hnew] at hfind
      cases hfind
    rw [hdeclare]
    refine ⟨h.inStep, ?_, hsame⟩
    rw [h.order, List.map_append, List.eraseDups_append]
    simp [List.removeAll, htaken]
  · have hnew := find?_eq_none_iff.1 hfind
    rw [hdeclare]
    refine ⟨h.inStep.declare hdeclare, ?_, hmore⟩
    rw [names_of_declare hdeclare, h.order, List.map_append, List.eraseDups_append]
    simp [List.removeAll, hnew, List.eraseDups_cons]

theorem Records.foldl (h : ns.Records entries) (more : List (String × Span)) :
    (more.foldl Namespace.add ns).Records (entries ++ more) := by
  induction more generalizing ns entries with
  | nil => rwa [List.append_nil]
  | cons entry more ih =>
    rw [List.append_cons]
    exact ih (h.add entry)

theorem records_ofEntries (entries : List (String × Span)) : (ofEntries entries).Records entries :=
  records_empty.foldl entries

/-- A declaration is refused with the first span of its name, if the name was declared before. -/
theorem Records.declare_eq_error_iff (h : ns.Records entries) {name : String} {span first : Span} :
    ns.declare name span = .error first ↔ (entries.find? (·.1 == name)).map Prod.snd = some first := by
  rw [← h.first name, declare]
  cases ns.first? name <;> simp

theorem Records.taken_iff (h : ns.Records entries) {name : String} {span : Span} :
    (∃ first, ns.declare name span = .error first) ↔ name ∈ entries.map Prod.fst := by
  simp only [h.declare_eq_error_iff]
  rw [← not_iff_not, ← find?_eq_none_iff]
  cases entries.find? (·.1 == name) <;> simp

/-- Just then it changes nothing. -/
theorem Records.add_eq_self_iff (h : ns.Records entries) {name : String} {span : Span} :
    ns.add (name, span) = ns ↔ name ∈ entries.map Prod.fst := by
  rw [← @Records.taken_iff ns entries h name span, Namespace.add]
  cases hdeclare : ns.declare name span with
  | error first => simp
  | ok ns' =>
    have hlonger : ns' ≠ ns := by
      intro hsame
      have hnames := names_of_declare hdeclare
      rw [hsame] at hnames
      simp at hnames
    simp [hlonger]

end Namespace

/-! ## Transactions -/

/-- The name of a declaration with its span. -/
def Declaration.entry (d : Declaration) : String × Span := (d.name, d.span)

theorem Namespace.declareAll_fst (category : Category) (ns : Namespace) (decls : List Declaration) :
    (ns.declareAll category decls).1 = (decls.map Declaration.entry).foldl add ns := by
  induction decls generalizing ns with
  | nil => rfl
  | cons d decls ih =>
    rw [List.map_cons, List.foldl_cons, declareAll, add, Declaration.entry]
    cases ns.declare d.name d.span with
    | error first => exact ih ns
    | ok ns' => exact ih ns'

/-- Whether a declaration declares a name in a category. -/
def Declaration.declares (category : Category) (name : String) (d : Declaration) : Bool :=
  decide (d.category = category ∧ d.name = name)

/-- The repetition that a declaration is, if an earlier one has its category and its name. -/
def Declaration.repetition? (earlier : List Declaration) (d : Declaration) : Option Repetition :=
  (earlier.find? (·.declares d.category d.name)).map fun first => ⟨d.category, d.name, first.span, d.span⟩

/-- Declarations one after the other, `earlier` before them: one that is the first of its name in its
category is recorded with its span, and each of the others gives one repetition, with the span recorded. -/
inductive Symbols.Sorts (symbols : Symbols) : List Declaration → List Declaration → List Repetition → Prop
  | done (earlier : List Declaration) : Sorts symbols earlier [] []
  | first {earlier decls : List Declaration} {d : Declaration} {repetitions : List Repetition}
    (new : ∀ e ∈ earlier, ¬(e.category = d.category ∧ e.name = d.name))
    (recorded : (symbols.namespaceOf d.category).first? d.name = some d.span)
    (more : Sorts symbols (earlier ++ [d]) decls repetitions) : Sorts symbols earlier (d :: decls) repetitions
  | again {earlier decls : List Declaration} {d : Declaration} {first : Span} {repetitions : List Repetition}
    (taken : ∃ e ∈ earlier, e.category = d.category ∧ e.name = d.name)
    (recorded : (symbols.namespaceOf d.category).first? d.name = some first)
    (more : Sorts symbols (earlier ++ [d]) decls repetitions) :
    Sorts symbols earlier (d :: decls) (⟨d.category, d.name, first, d.span⟩ :: repetitions)

namespace Transaction

variable (tx : Transaction)

/-- The namespace of a category holds the first of its declarations for each name. -/
theorem records_symbols (category : Category) :
    (tx.symbols.namespaceOf category).Records ((tx.declared category).map Declaration.entry) := by
  rw [namespaceOf_symbols, declareAll, Namespace.declareAll_fst]
  exact Namespace.records_empty.foldl _

theorem first?_symbols (category : Category) (name : String) :
    (tx.symbols.namespaceOf category).first? name = (tx.declarations.find? (·.declares category name)).map (·.span) := by
  have hsame : (fun d : Declaration => decide (decide (d.category = category) = true ∧ (d.name == name) = true)) =
      fun d => d.declares category name := by
    funext d
    simp [Declaration.declares]
  have hfind : (tx.declared category).find? (·.name == name) = tx.declarations.find? (·.declares category name) := by
    rw [declared, List.find?_filter, hsame]
  rw [(tx.records_symbols category).first name, List.find?_map, Option.map_map, ← hfind]
  rfl

end Transaction

theorem withEarlier_append {α : Type} (earlier xs ys : List α) :
    withEarlier earlier (xs ++ ys) = withEarlier earlier xs ++ withEarlier (earlier ++ xs) ys := by
  induction xs generalizing earlier with
  | nil => rw [List.append_nil]; rfl
  | cons x xs ih => rw [List.cons_append, withEarlier, withEarlier, ih, List.cons_append, ← List.append_cons]

section Repetitions

variable {category : Category} {before : List Declaration}

/-- Declarations of one category are repeated by their names, whatever is declared in others before. -/
theorem repetition?_of_category (hbefore : ∀ e ∈ before, e.category ≠ category) {here : List Declaration}
    (hhere : ∀ e ∈ here, e.category = category) {d : Declaration} (hd : d.category = category) :
    d.repetition? (before ++ here) =
      (here.find? (·.name == d.name)).map fun first => ⟨category, d.name, first.span, d.span⟩ := by
  have hnone : before.find? (·.declares d.category d.name) = none := by
    simpa [Declaration.declares, hd] using fun e he hcategory => absurd hcategory (hbefore e he)
  have hsame : here.find? (·.declares d.category d.name) = here.find? (·.name == d.name) := by
    refine List.find?_congr fun e he => ?_
    simp [Declaration.declares, hd, hhere e he, Bool.beq_eq_decide_eq]
  rw [Declaration.repetition?, List.find?_append, hnone, Option.none_or, hsame, hd]

theorem repetitions_of_category (hbefore : ∀ e ∈ before, e.category ≠ category) {here decls : List Declaration}
    (hhere : ∀ e ∈ here, e.category = category) (hdecls : ∀ d ∈ decls, d.category = category) :
    (withEarlier (before ++ here) decls).filterMap (fun place => place.2.repetition? place.1) =
      (withEarlier here decls).filterMap fun place =>
        (place.1.find? (·.name == place.2.name)).map fun first => ⟨category, place.2.name, first.span, place.2.span⟩ := by
  induction decls generalizing here with
  | nil => rfl
  | cons d decls ih =>
    rw [List.forall_mem_cons] at hdecls
    have hmore : ∀ e ∈ here ++ [d], e.category = category := by
      simpa [or_imp, forall_and, hdecls.1] using hhere
    rw [withEarlier, withEarlier, List.filterMap_cons, List.filterMap_cons, List.append_assoc, ih hmore hdecls.2,
      repetition?_of_category hbefore hhere hdecls.1]

end Repetitions

namespace Transaction

variable (tx : Transaction)

theorem declarations_eq : tx.declarations = Category.all.flatMap tx.declared := by
  simp [Category.all, declared_eq, declarations]

theorem repetitions_of_categories {cs : List Category} {before : List Declaration} (hcs : cs.Nodup)
    (hbefore : ∀ e ∈ before, e.category ∉ cs) :
    (withEarlier before (cs.flatMap tx.declared)).filterMap (fun place => place.2.repetition? place.1) =
      cs.flatMap fun c => (tx.declareAll c).2 := by
  induction cs generalizing before with
  | nil => rfl
  | cons c cs ih =>
    obtain ⟨hnew, hcs⟩ := List.nodup_cons.1 hcs
    have hempty : Namespace.empty.Knows Declaration.name Declaration.span [] := fun _ => rfl
    have hdeclared : ∀ d ∈ tx.declared c, d.category = c := fun d hd => of_decide_eq_true (List.mem_filter.1 hd).2
    have hothers : ∀ e ∈ before ++ tx.declared c, e.category ∉ cs := by
      intro e he hmem
      rcases List.mem_append.1 he with he | he
      · exact hbefore e he (List.mem_cons_of_mem _ hmem)
      · exact hnew (hdeclared e he ▸ hmem)
    have hbeforeOnly : ∀ e ∈ before, e.category ≠ c := fun e he heq => hbefore e he (heq ▸ List.mem_cons_self)
    have hnone : ∀ e ∈ ([] : List Declaration), e.category = c := fun e he => absurd he List.not_mem_nil
    have hhere := repetitions_of_category hbeforeOnly hnone hdeclared
    rw [List.append_nil, ← Namespace.repetitions_eq hempty] at hhere
    rw [List.flatMap_cons, List.flatMap_cons, withEarlier_append, List.filterMap_append, hhere, ih hcs hothers, declareAll]

/-- The repetitions come in the order of the declarations, also across categories. -/
theorem repetitions_eq :
    tx.repetitions = (withEarlier [] tx.declarations).filterMap fun place => place.2.repetition? place.1 := by
  have hnone : ∀ e ∈ ([] : List Declaration), e.category ∉ Category.all := fun e he => absurd he List.not_mem_nil
  rw [declarations_eq]
  exact (tx.repetitions_of_categories (by decide) hnone).symm

theorem sorts_from {before decls : List Declaration} (h : tx.declarations = before ++ decls) :
    tx.symbols.Sorts before decls ((withEarlier before decls).filterMap fun place => place.2.repetition? place.1) := by
  induction decls generalizing before with
  | nil => exact .done before
  | cons d decls ih =>
    have hsplit : tx.declarations = (before ++ [d]) ++ decls := by rw [h, List.append_cons]
    have hmore := ih hsplit
    have hfirst := tx.first?_symbols d.category d.name
    rw [h, List.find?_append] at hfirst
    rw [withEarlier]
    cases hfind : before.find? (·.declares d.category d.name) with
    | none =>
      rw [List.filterMap_cons_none (by rw [Declaration.repetition?, hfind]; rfl)]
      refine .first ?_ ?_ hmore
      · simpa [Declaration.declares] using hfind
      · rw [hfirst, hfind]
        simp [Declaration.declares]
    | some first =>
      rw [List.filterMap_cons_some (by rw [Declaration.repetition?, hfind]; rfl)]
      refine .again ⟨first, List.mem_of_find?_eq_some hfind, ?_⟩ ?_ hmore
      · simpa [Declaration.declares] using List.find?_some hfind
      · rw [hfirst, hfind]
        rfl

end Transaction

/-- After any declarations a namespace lists each name declared once, in the order of their first declarations,
and has a span for just these names, that of the first declaration. A declaration is refused with this span just
if its name is taken, and just then it changes nothing. So the symbols and the repetitions of a transaction sort
out its declarations, and what resolves is what is declared. -/
theorem first_declarations_recorded :
    (∀ entries : List (String × Span), (Namespace.ofEntries entries).Records entries ∧ ∀ name span,
      ((∃ first, (Namespace.ofEntries entries).declare name span = .error first) ↔ name ∈ entries.map Prod.fst) ∧
      (∀ first, (Namespace.ofEntries entries).declare name span = .error first ↔
        (entries.find? (·.1 == name)).map Prod.snd = some first) ∧
      (Namespace.ofEntries (entries ++ [(name, span)]) = Namespace.ofEntries entries ↔ name ∈ entries.map Prod.fst)) ∧
    ∀ tx : Transaction, tx.symbols.Sorts [] tx.declarations tx.repetitions ∧
      (∀ category, (tx.symbols.namespaceOf category).Records ((tx.declared category).map Declaration.entry)) ∧
      ∀ category name, tx.symbols.resolves category name = true ↔
        ∃ d ∈ tx.declarations, d.category = category ∧ d.name = name := by
  constructor
  · intro entries
    have hrecords := Namespace.records_ofEntries entries
    refine ⟨hrecords, fun name span => ⟨hrecords.taken_iff, fun first => hrecords.declare_eq_error_iff, ?_⟩⟩
    rw [Namespace.ofEntries, List.foldl_append]
    exact hrecords.add_eq_self_iff
  · intro tx
    refine ⟨?_, tx.records_symbols, fun category name => ?_⟩
    · rw [tx.repetitions_eq]
      exact tx.sorts_from rfl
    · rw [Transaction.resolves_iff]
      simp only [Transaction.declared, List.mem_filter, decide_eq_true_eq, and_assoc]

end Parley
