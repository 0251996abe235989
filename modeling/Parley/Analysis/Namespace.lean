/-
Namespaces: the names declared in one category, in the order of their first declarations, and beside
them the span of each name's first declaration. A name that is declared again leaves the namespace as
it is and is reported with the span that has it.
-/
import Parley.Schema.Basic

namespace Parley

structure Namespace where
  /-- The declared names in the order of their first declarations. -/
  names : List String
  /-- The spans of first declarations, to be looked up by name. -/
  spans : List (String × Span)
deriving DecidableEq, Repr

namespace Namespace

def empty : Namespace := ⟨[], []⟩

/-- The span of the first declaration of a name. -/
def first? (ns : Namespace) (name : String) : Option Span := ns.spans.lookup name

def contains (ns : Namespace) (name : String) : Bool := (ns.first? name).isSome

/-- Declares a name; if it is taken, the span of its first declaration instead. -/
def declare (ns : Namespace) (name : String) (span : Span) : Except Span Namespace :=
  match ns.first? name with
  | some first => .error first
  | none => .ok ⟨ns.names ++ [name], (name, span) :: ns.spans⟩

theorem contains_of_declare_error {ns : Namespace} {name : String} {span first : Span}
    (h : ns.declare name span = .error first) : ns.contains name = true := by
  unfold declare at h
  cases hfirst : ns.first? name with
  | some first => rw [contains, hfirst, Option.isSome_some]
  | none =>
    rw [hfirst] at h
    cases h

theorem names_of_declare {ns ns' : Namespace} {name : String} {span : Span} (h : ns.declare name span = .ok ns') :
    ns'.names = ns.names ++ [name] := by
  unfold declare at h
  cases hfirst : ns.first? name with
  | some first =>
    rw [hfirst] at h
    cases h
  | none =>
    rw [hfirst] at h
    cases h
    rfl

/-- Every name is listed once, and the names listed are those that have a span. -/
structure InStep (ns : Namespace) : Prop where
  nodup : ns.names.Nodup
  keys : ns.names.Perm (ns.spans.map Prod.fst)

theorem inStep_empty : empty.InStep := ⟨List.nodup_nil, .refl _⟩

theorem InStep.contains_iff {ns : Namespace} (h : ns.InStep) {name : String} : ns.contains name = true ↔ name ∈ ns.names := by
  rw [contains, first?, List.lookup_isSome_iff, h.keys.mem_iff, List.mem_map]
  simp

/-- Declaring a name keeps the names listed in step with their spans. -/
theorem InStep.declare {ns ns' : Namespace} (h : ns.InStep) {name : String} {span : Span}
    (hdeclare : ns.declare name span = .ok ns') : ns'.InStep := by
  unfold Namespace.declare at hdeclare
  cases hfirst : ns.first? name with
  | some first =>
    rw [hfirst] at hdeclare
    cases hdeclare
  | none =>
    rw [hfirst] at hdeclare
    cases hdeclare
    have hnew : name ∉ ns.names := by
      rw [← h.contains_iff, contains, hfirst]
      simp
    constructor
    · exact List.nodup_append.2 ⟨h.nodup, by simp, fun a ha b hb heq => hnew (List.mem_singleton.1 hb ▸ heq ▸ ha)⟩
    · exact List.perm_append_comm.trans (h.keys.cons name)

end Namespace

/-- A declaration of a name that is taken. -/
structure Repetition where
  category : Category
  name : String
  first : Span
  again : Span
deriving DecidableEq, Repr

/-- Declares names one after the other and collects those that are taken. -/
def Namespace.declareAll (category : Category) (ns : Namespace) :
    List Declaration → Namespace × List Repetition
  | [] => (ns, [])
  | decl :: decls =>
    match ns.declare decl.name decl.span with
    | .ok ns => declareAll category ns decls
    | .error first =>
      let (ns, repeated) := declareAll category ns decls
      (ns, ⟨category, decl.name, first, decl.span⟩ :: repeated)

theorem Namespace.InStep.declareAll {category : Category} {ns : Namespace} {decls : List Declaration} (h : ns.InStep) :
    (ns.declareAll category decls).1.InStep := by
  induction decls generalizing ns with
  | nil => exact h
  | cons d decls ih =>
    unfold Namespace.declareAll
    cases hdeclare : ns.declare d.name d.span with
    | ok ns' => exact ih (h.declare hdeclare)
    | error first => exact ih h

/-- The namespace of a category of a transaction, and its repeated declarations. -/
def Transaction.declareAll (tx : Transaction) (category : Category) :
    Namespace × List Repetition :=
  Namespace.empty.declareAll category (tx.declared category)

structure Symbols where
  actors : Namespace
  messages : Namespace
  blocks : Namespace
  functions : Namespace

namespace Symbols

def namespaceOf (symbols : Symbols) : Category → Namespace
  | .actor => symbols.actors
  | .message => symbols.messages
  | .block => symbols.blocks
  | .function => symbols.functions

def resolves (symbols : Symbols) (category : Category) (name : String) : Bool :=
  (symbols.namespaceOf category).contains name

end Symbols

namespace Transaction

def symbols (tx : Transaction) : Symbols where
  actors := (tx.declareAll .actor).1
  messages := (tx.declareAll .message).1
  blocks := (tx.declareAll .block).1
  functions := (tx.declareAll .function).1

theorem inStep_symbols (tx : Transaction) (category : Category) : (tx.symbols.namespaceOf category).InStep := by
  cases category <;> exact Namespace.inStep_empty.declareAll

/-- Every declaration of a name that its category already has. -/
def repetitions (tx : Transaction) : List Repetition :=
  Category.all.flatMap fun category => (tx.declareAll category).2

end Transaction

end Parley
