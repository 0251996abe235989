/-
Parts of a derivation. What is read off a part is read off neighbouring leaves of the whole, and
spans them; a type has exactly its own tokens there. The leaves of names, in declarations and in
references, are leaves of their own, and they are the names of the schema.
-/
import Parley.Proofs.Analysis.Report
import Parley.Proofs.Token.Place
import Mathlib.Data.List.Flatten

namespace Parley

open Scan

/-! ## Leaves of lists -/

section Lists

variable {τ : Type} {f : τ → List Lexeme} {g : τ → Lexeme} {x : τ} {xs : List τ}

theorem infix_flatMap (h : x ∈ xs) : f x <:+: xs.flatMap f := List.infix_of_mem_flatten (List.mem_map_of_mem h)

theorem map_sublist_flatMap (h : ∀ x ∈ xs, g x ∈ f x) : (xs.map g).Sublist (xs.flatMap f) := by
  rw [List.map_eq_flatMap]
  exact .flatMap_right xs fun x hx => List.singleton_sublist.2 (h x hx)

end Lists

/-! ## Types -/

mutual

/-- The tokens that a type is written with. -/
def TypeExpr.tokens : TypeExpr → List Token
  | ⟨name, [], _⟩ => [.name name]
  | ⟨name, arg :: args, _⟩ =>
    .name name :: .symbol .less :: (arg.tokens ++ (TypeExpr.moreTokens args ++ [.symbol .greater]))

def TypeExpr.moreTokens : List TypeExpr → List Token
  | [] => []
  | type :: types => .symbol .comma :: (type.tokens ++ TypeExpr.moreTokens types)

end

mutual

theorem TypeTree.tokens_lexemes : ∀ t : TypeTree, tokensOf t.lexemes = t.type.tokens
  | .plain name => congrArg (fun token => [token]) name.holds
  | .applied name left first more right => by
    simp [TypeTree.lexemes, TypeTree.type, TypeExpr.tokens, name.holds, left.holds, right.holds,
      first.tokens_lexemes, more.tokens_lexemes]

theorem TypeTrees.tokens_lexemes : ∀ ts : TypeTrees, tokensOf ts.lexemes = TypeExpr.moreTokens ts.types
  | .none => rfl
  | .more comma type rest => by
    simp [TypeTrees.lexemes, TypeTrees.types, TypeExpr.moreTokens, comma.holds, type.tokens_lexemes, rest.tokens_lexemes]

end

/-- A type spans its leaves. -/
theorem TypeTree.span_type (t : TypeTree) : t.type.span = rangeOf t.lexemes := by
  cases t with
  | plain name => exact (rangeOf_singleton _).symm
  | applied name left first more right =>
    have hlast : (TypeTree.applied name left first more right).lexemes.getLast? = some right.lexeme := by
      rw [TypeTree.lexemes, ← List.append_assoc, ← List.cons_append, ← List.cons_append]
      exact List.getLast?_concat
    rw [rangeOf, hlast]
    rfl

theorem TypeTree.lexemes_ne_nil (t : TypeTree) : t.lexemes ≠ [] := by
  cases t <;> exact List.cons_ne_nil _ _

mutual

/-- A type in the arguments of a type is read off a part of it. -/
theorem TypeTree.exists_node : ∀ t : TypeTree, ∀ node ∈ t.type.nodes, ∃ u : TypeTree, u.type = node ∧ u.lexemes <:+: t.lexemes
  | .plain name, node, h => by
    obtain rfl := List.mem_singleton.1 h
    exact ⟨.plain name, rfl, List.infix_refl _⟩
  | .applied name left first more right, node, h => by
    rcases List.mem_cons.1 h with rfl | h
    · exact ⟨.applied name left first more right, rfl, List.infix_refl _⟩
    · rcases List.mem_append.1 h with h | h
      · obtain ⟨u, hu, hpart⟩ := first.exists_node node h
        refine ⟨u, hu, hpart.trans ⟨[name.lexeme, left.lexeme], more.lexemes ++ [right.lexeme], ?_⟩⟩
        simp [TypeTree.lexemes]
      · obtain ⟨u, hu, hpart⟩ := more.exists_node node h
        refine ⟨u, hu, hpart.trans ⟨name.lexeme :: left.lexeme :: first.lexemes, [right.lexeme], ?_⟩⟩
        simp [TypeTree.lexemes]

theorem TypeTrees.exists_node : ∀ ts : TypeTrees, ∀ node ∈ TypeExpr.allNodes ts.types,
    ∃ u : TypeTree, u.type = node ∧ u.lexemes <:+: ts.lexemes
  | .none, node, h => absurd h List.not_mem_nil
  | .more comma type rest, node, h => by
    rcases List.mem_append.1 h with h | h
    · obtain ⟨u, hu, hpart⟩ := type.exists_node node h
      refine ⟨u, hu, hpart.trans ⟨[comma.lexeme], rest.lexemes, ?_⟩⟩
      simp [TypeTrees.lexemes]
    · obtain ⟨u, hu, hpart⟩ := rest.exists_node node h
      refine ⟨u, hu, hpart.trans ⟨comma.lexeme :: type.lexemes, [], ?_⟩⟩
      simp [TypeTrees.lexemes]

end

/-! ## Parts -/

/-- A value is read off a derivation whose leaves are neighbours among some lexemes. -/
def PartOf {τ α : Type} (f : τ → List Lexeme) (v : τ → α) (ls : List Lexeme) (a : α) : Prop := ∃ t, v t = a ∧ f t <:+: ls

theorem PartOf.trans {τ α : Type} {f : τ → List Lexeme} {v : τ → α} {ls ms : List Lexeme} {a : α} (h : PartOf f v ls a)
    (hls : ls <:+: ms) : PartOf f v ms a := by
  obtain ⟨t, ht, hpart⟩ := h
  exact ⟨t, ht, hpart.trans hls⟩

/-- The items of a list with a mark behind some of them. -/
theorem partOf_closed {τ α : Type} {f : τ → List Lexeme} {v : τ → α} {mark : Symbol} {xs : List (τ × Option (SymbolLeaf mark))}
    {a : α} (h : a ∈ xs.map fun x => v x.1) : PartOf f v (xs.flatMap (closedLexemes f)) a := by
  obtain ⟨x, hx, rfl⟩ := List.mem_map.1 h
  refine ⟨x.1, rfl, .trans ⟨[], optionalLeaf x.2, ?_⟩ (infix_flatMap hx)⟩
  rfl

/-- The items of a list with marks between them. -/
theorem partOf_separated {τ α : Type} {f : τ → List Lexeme} {v : τ → α} {s : Separated τ} {a : α} (h : a ∈ s.values v) :
    PartOf f v (s.lexemes f) a := by
  rcases List.mem_cons.1 h with rfl | h
  · exact ⟨s.first, rfl, (List.prefix_append _ _).isInfix⟩
  · obtain ⟨x, hx, rfl⟩ := List.mem_map.1 h
    have hcons : f x.2 <:+: x.1.lexeme :: f x.2 := (List.suffix_cons _ _).isInfix
    refine ⟨x.2, rfl, hcons.trans ?_⟩
    refine (infix_flatMap (f := fun x : SymbolLeaf .comma × τ => x.1.lexeme :: f x.2) hx).trans ?_
    exact (List.suffix_append _ _).isInfix

theorem BlockTree.partOf {t : BlockTree} {s : Statement} (h : s ∈ t.block.statements) :
    PartOf StatementTree.lexemes StatementTree.statement t.lexemes s := by
  refine (partOf_closed h).trans ⟨optionalLeaf t.entry ++ [t.word.lexeme, t.name.lexeme, t.left.lexeme], [t.right.lexeme], ?_⟩
  simp [lexemes]

theorem MessageTree.partOf {t : MessageTree} {f : Field} (h : f ∈ t.message.fields) :
    PartOf BindingTree.lexemes BindingTree.field t.lexemes f := by
  refine (partOf_closed h).trans ⟨[t.word.lexeme, t.name.lexeme, t.sender.lexeme, t.arrow.lexeme, t.receiver.lexeme,
    t.left.lexeme], [t.right.lexeme], ?_⟩
  simp [lexemes]

theorem FunctionTree.partOf {t : FunctionTree} {p : Param} (h : p ∈ t.function.params) :
    PartOf BindingTree.lexemes BindingTree.param t.lexemes p := by
  cases hparams : t.params with
  | none =>
    simp [function, hparams] at h
  | some ps =>
    simp only [function, hparams, Option.elim_some] at h
    refine (partOf_separated h).trans ⟨[t.word.lexeme, t.name.lexeme, t.left.lexeme], optionalLeaf ps.comma ++
      t.right.lexeme :: (optionalLexemes ReturnsTree.lexemes t.returns ++ t.openBrace.lexeme ::
        (optionalLeaf t.description ++ [t.closeBrace.lexeme])), ?_⟩
    simp [lexemes, hparams, optionalLexemes, ParamsTree.lexemes]

theorem BindingTree.infix_type (t : BindingTree) : t.type.lexemes <:+: t.lexemes :=
  ⟨[t.name.lexeme, t.colon.lexeme], [], by simp [lexemes]⟩

namespace TransactionTree

variable {t : TransactionTree}

theorem infix_declaration {d : DeclarationTree} (h : d ∈ t.declarations) : d.lexemes <:+: t.lexemes := by
  refine (infix_flatMap h).trans ⟨t.header.lexemes, [t.right.lexeme], ?_⟩
  simp [lexemes]

theorem partOf_message {m : Message} (h : m ∈ t.transaction.messages) :
    PartOf MessageTree.lexemes MessageTree.message t.lexemes m := by
  obtain ⟨d, hd, hm⟩ := List.mem_filterMap.1 h
  cases d <;> cases hm
  exact ⟨_, rfl, infix_declaration hd⟩

theorem partOf_function {f : Function} (h : f ∈ t.transaction.functions) :
    PartOf FunctionTree.lexemes FunctionTree.function t.lexemes f := by
  obtain ⟨d, hd, hf⟩ := List.mem_filterMap.1 h
  cases d <;> cases hf
  exact ⟨_, rfl, infix_declaration hd⟩

theorem partOf_block {b : Block} (h : b ∈ t.transaction.blocks) : PartOf BlockTree.lexemes BlockTree.block t.lexemes b := by
  obtain ⟨d, hd, hb⟩ := List.mem_filterMap.1 h
  cases d <;> cases hb
  exact ⟨_, rfl, infix_declaration hd⟩

theorem partOf_statement {s : Statement} (h : s ∈ t.transaction.statements) :
    PartOf StatementTree.lexemes StatementTree.statement t.lexemes s := by
  obtain ⟨b, hb, hs⟩ := List.mem_flatMap.1 h
  obtain ⟨u, rfl, hpart⟩ := partOf_block hb
  exact (u.partOf hs).trans hpart

end TransactionTree

theorem SchemaTree.partOf {t : SchemaTree} {tx : Transaction} (h : tx ∈ t.schema.transactions) :
    PartOf TransactionTree.lexemes TransactionTree.transaction t.lexemes tx := by
  obtain ⟨u, hu, rfl⟩ := List.mem_map.1 h
  exact ⟨u, rfl, infix_flatMap hu⟩

/-! ## Names -/

def ActionTree.target : ActionTree → NameLeaf
  | send _ target => target
  | call _ target _ _ _ => target
  | goto _ target => target

/-- The leaves of names: what is declared, and what is referred to. -/
def DeclarationTree.named : DeclarationTree → List NameLeaf
  | actor tree => [tree.name]
  | message tree => tree.name :: tree.sender :: tree.receiver :: tree.fields.map fun x => x.1.name
  | function tree => tree.name :: tree.params.elim [] fun ps => ps.params.values (·.name)
  | block tree => tree.name :: tree.statements.map fun x => x.1.action.target

def TransactionTree.named (t : TransactionTree) : List NameLeaf :=
  t.header.name :: t.declarations.flatMap DeclarationTree.named

def SchemaTree.named (t : SchemaTree) : List NameLeaf := t.transactions.flatMap TransactionTree.named

theorem ActionTree.target_mem (t : ActionTree) : t.target.lexeme ∈ t.lexemes := by
  cases t <;> exact List.mem_cons_of_mem _ List.mem_cons_self

theorem DeclarationTree.named_sublist (t : DeclarationTree) : (t.named.map (·.lexeme)).Sublist t.lexemes := by
  cases t with
  | actor tree =>
    exact ((List.nil_sublist _).cons_cons _).cons _
  | message tree =>
    have hfields : ((tree.fields.map fun x => x.1.name).map (·.lexeme)).Sublist
        (tree.fields.flatMap (closedLexemes BindingTree.lexemes)) := by
      rw [List.map_map]
      exact map_sublist_flatMap fun x _ => List.mem_cons_self
    have hrest := hfields.trans (List.sublist_append_left _ [tree.right.lexeme])
    exact ((((((hrest.cons _).cons_cons _).cons _).cons_cons _).cons_cons _).cons _)
  | function tree =>
    refine List.Sublist.cons _ (.cons_cons _ (.cons _ ?_))
    refine List.Sublist.trans ?_ (List.sublist_append_left _ _)
    cases tree.params with
    | none => exact List.nil_sublist _
    | some ps =>
      refine List.Sublist.trans ?_ (List.sublist_append_left _ _)
      show (ps.params.first.name.lexeme :: (ps.params.more.map fun x => x.2.name).map (·.lexeme)).Sublist _
      rw [List.map_map]
      refine .cons_cons _ (List.Sublist.trans ?_ (List.sublist_append_right _ _))
      exact map_sublist_flatMap fun x _ => List.mem_cons_of_mem _ List.mem_cons_self
  | block tree =>
    have hstatements : ((tree.statements.map fun x => x.1.action.target).map (·.lexeme)).Sublist
        (tree.statements.flatMap (closedLexemes StatementTree.lexemes)) := by
      rw [List.map_map]
      refine map_sublist_flatMap fun x _ => ?_
      exact List.mem_append_left _ (List.mem_append_left _ x.1.action.target_mem)
    have hrest := hstatements.trans (List.sublist_append_left _ [tree.right.lexeme])
    exact (((hrest.cons _).cons_cons _).cons _).trans (List.sublist_append_right _ _)

theorem TransactionTree.named_sublist (t : TransactionTree) : (t.named.map (·.lexeme)).Sublist t.lexemes := by
  have hdecls : ((t.declarations.flatMap DeclarationTree.named).map (·.lexeme)).Sublist
      (t.declarations.flatMap DeclarationTree.lexemes) := by
    rw [List.map_flatMap]
    exact .flatMap_right _ fun d _ => d.named_sublist
  have hrest := hdecls.trans (List.sublist_append_left _ [t.right.lexeme])
  exact .cons _ (.cons_cons _ (hrest.trans (List.sublist_append_right _ _)))

/-- The leaves of names are leaves of their own. -/
theorem SchemaTree.named_sublist (t : SchemaTree) : (t.named.map (·.lexeme)).Sublist t.lexemes := by
  unfold named lexemes
  rw [List.map_flatMap]
  exact .flatMap_right _ fun u _ => u.named_sublist

/-- The names of a transaction with their spans: its own, those that it declares, with fields and
parameters, and its references. -/
def Transaction.names (tx : Transaction) : List (String × Span) :=
  (tx.name, tx.span) :: (tx.declaredNames.map Prod.snd ++ tx.references.map fun x => (x.2.name, x.2.span))

def Schema.names (s : Schema) : List (String × Span) := s.transactions.flatMap Transaction.names

def Declaration.names : Declaration → List (String × Span)
  | actor a => [(a.name, a.span)]
  | message m =>
    (m.name, m.span) :: (m.sender.name, m.sender.span) :: (m.receiver.name, m.receiver.span) ::
      m.fields.map fun f => (f.name, f.span)
  | block b => (b.name, b.span) :: b.statements.map fun s => (s.action.target.name, s.action.target.span)
  | function f => (f.name, f.span) :: f.params.map fun p => (p.name, p.span)

def NameLeaf.entry (leaf : NameLeaf) : String × Span := (leaf.value, leaf.lexeme.span)

theorem ActionTree.target_action (t : ActionTree) : t.action.target = t.target.reference := by
  cases t <;> rfl

theorem DeclarationTree.names_declaration (t : DeclarationTree) : t.declaration.names = t.named.map NameLeaf.entry := by
  cases t with
  | actor tree => rfl
  | message tree =>
    simp only [declaration, Declaration.names, MessageTree.message, named, List.map_cons, List.map_map]
    rfl
  | function tree =>
    simp only [declaration, Declaration.names, FunctionTree.function, named, List.map_cons]
    cases tree.params with
    | none => rfl
    | some ps =>
      simp only [Option.elim_some, Separated.values, List.map_cons, List.map_map]
      rfl
  | block tree =>
    simp only [declaration, Declaration.names, BlockTree.block, named, List.map_cons, List.map_map, Function.comp_def,
      StatementTree.statement, ActionTree.target_action]
    rfl

/-- The names of a transaction are those of its leaves, sorted by what they name. -/
theorem TransactionTree.names_perm (t : TransactionTree) : t.transaction.names.Perm (t.named.map NameLeaf.entry) := by
  refine List.Perm.cons _ ?_
  have hnamed : (t.declarations.flatMap DeclarationTree.named).map NameLeaf.entry =
      t.declarations.flatMap fun d => d.declaration.names := by
    simp only [List.map_flatMap, DeclarationTree.names_declaration]
  -- declarations of all kinds may stand between each other, so each name is counted
  rw [hnamed, List.perm_iff_count]
  intro a
  simp only [transaction, Transaction.declaredNames, Transaction.references, Transaction.statements, List.map_append,
    List.map_flatMap, List.map_map, List.map_cons, List.map_nil, List.count_append, Function.comp_def]
  induction t.declarations with
  | nil => rfl
  | cons d ds ih =>
    rw [List.flatMap_cons, List.count_append, ← ih]
    -- a declaration has its names in the part of its kind, and none in the others
    cases d
    all_goals
      simp only [DeclarationTree.declaration, Declaration.names, DeclarationTree.actor?, DeclarationTree.message?,
        DeclarationTree.block?, DeclarationTree.function?, List.filterMap_cons, List.map_cons, List.flatMap_cons,
        List.count_cons, List.count_append, List.count_nil]
      omega

theorem SchemaTree.names_perm (t : SchemaTree) : t.schema.names.Perm (t.named.map NameLeaf.entry) := by
  unfold Schema.names named schema
  rw [List.map_flatMap, List.flatMap_map]
  induction t.transactions with
  | nil => exact .nil
  | cons u us ih =>
    rw [List.flatMap_cons, List.flatMap_cons]
    exact u.names_perm.append ih

/-! ## The order of declarations -/

/-- The leaf of the name that a declaration declares. -/
def DeclarationTree.leaf : DeclarationTree → NameLeaf
  | actor tree => tree.name
  | message tree => tree.name
  | function tree => tree.name
  | block tree => tree.name

theorem DeclarationTree.span_declaration (t : DeclarationTree) : t.declaration.span = t.leaf.lexeme.span := by
  cases t <;> rfl

theorem DeclarationTree.leaf_mem (t : DeclarationTree) : t.leaf.lexeme ∈ t.lexemes := by
  cases t with
  | actor tree | message tree | function tree => exact List.mem_cons_of_mem _ List.mem_cons_self
  | block tree => exact List.mem_append_right _ (List.mem_cons_of_mem _ List.mem_cons_self)

theorem Transaction.declared_eq (tx : Transaction) (category : Category) :
    tx.declared category = match category with
      | .actor => tx.actors.map .actor
      | .message => tx.messages.map .message
      | .block => tx.blocks.map .block
      | .function => tx.functions.map .function := by
  cases category <;> simp [declared, declarations, List.filter_map, Function.comp_def, Declaration.category]

/-- The declarations of a category keep their order. -/
theorem TransactionTree.declared_sublist (t : TransactionTree) (category : Category) :
    (t.transaction.declared category).Sublist (t.declarations.map DeclarationTree.declaration) := by
  rw [Transaction.declared_eq]
  cases category with
  | actor => exact filterMap_map_sublist (by rintro (_ | _ | _ | _) _ ⟨⟩; rfl) t.declarations
  | message => exact filterMap_map_sublist (by rintro (_ | _ | _ | _) _ ⟨⟩; rfl) t.declarations
  | block => exact filterMap_map_sublist (by rintro (_ | _ | _ | _) _ ⟨⟩; rfl) t.declarations
  | function => exact filterMap_map_sublist (by rintro (_ | _ | _ | _) _ ⟨⟩; rfl) t.declarations

/-- Lexemes in the order of their offsets. -/
abbrev Ascending (ls : List Lexeme) : Prop := ls.Pairwise fun l m => l.span.offset < m.span.offset

theorem TransactionTree.declared_lt {t : TransactionTree} (h : Ascending t.lexemes) (category : Category) :
    ((t.transaction.declared category).map (·.span.offset)).Pairwise (· < ·) := by
  have hdecls : (t.declarations.map fun d => d.leaf.lexeme).Sublist (t.declarations.flatMap DeclarationTree.lexemes) :=
    map_sublist_flatMap fun d _ => d.leaf_mem
  have hleaves := h.sublist ((hdecls.trans (List.sublist_append_left _ [t.right.lexeme])).trans
    (List.sublist_append_right t.header.lexemes _))
  refine List.Pairwise.sublist ((t.declared_sublist category).map _) ?_
  rw [List.pairwise_map] at hleaves
  rw [List.map_map, List.pairwise_map]
  refine hleaves.imp fun {d e} hlt => ?_
  show d.declaration.span.offset < e.declaration.span.offset
  rwa [d.span_declaration, e.span_declaration]

/-! ## Return types -/

/-- The tokens that end the parameters of a function: the arrow before its return type, or the brace
before its body. -/
def Token.endsParams (t : Token) : Bool := t == .symbol .arrow || t == .symbol .openBrace

/-- What ends the parameters of a function: the first arrow or opening brace behind its name. -/
def Function.paramsEnd (f : Function) (ls : List Lexeme) : Option Token :=
  (tokensOf (ls.dropWhile fun l => decide (l.span.offset ≤ f.span.offset))).find? Token.endsParams

mutual

theorem TypeExpr.not_endsParams : ∀ type : TypeExpr, ∀ t ∈ type.tokens, t.endsParams = false
  | ⟨name, [], _⟩, t, h => by
    obtain rfl := List.mem_singleton.1 h
    rfl
  | ⟨name, arg :: args, _⟩, t, h => by
    simp only [tokens, List.mem_cons, List.mem_append, List.not_mem_nil, or_false] at h
    rcases h with rfl | rfl | h | h | rfl
    · rfl
    · rfl
    · exact arg.not_endsParams t h
    · exact TypeExpr.more_not_endsParams args t h
    · rfl

theorem TypeExpr.more_not_endsParams : ∀ types : List TypeExpr, ∀ t ∈ moreTokens types, t.endsParams = false
  | [], t, h => absurd h List.not_mem_nil
  | type :: types, t, h => by
    simp only [moreTokens, List.mem_cons, List.mem_append] at h
    rcases h with rfl | h | h
    · rfl
    · exact type.not_endsParams t h
    · exact TypeExpr.more_not_endsParams types t h

end

theorem BindingTree.not_endsParams (b : BindingTree) : ∀ t ∈ tokensOf b.lexemes, t.endsParams = false := by
  intro t h
  simp only [lexemes, tokensOf_cons, b.name.holds, b.colon.holds, b.type.tokens_lexemes, List.mem_cons] at h
  rcases h with rfl | rfl | h
  · rfl
  · rfl
  · exact b.type.type.not_endsParams t h

theorem ParamsTree.not_endsParams (ps : ParamsTree) : ∀ t ∈ tokensOf ps.lexemes, t.endsParams = false := by
  intro t h
  simp only [lexemes, Separated.lexemes, tokensOf_append, List.mem_append] at h
  rcases h with (h | h) | h
  · exact ps.params.first.not_endsParams t h
  · obtain ⟨l, hl, rfl⟩ := List.mem_map.1 h
    obtain ⟨x, -, hl⟩ := List.mem_flatMap.1 hl
    rcases List.mem_cons.1 hl with rfl | hl
    · rw [x.1.holds]
      rfl
    · exact x.2.not_endsParams _ (List.mem_map_of_mem hl)
  · cases hcomma : ps.comma with
    | none =>
      rw [hcomma] at h
      exact absurd h List.not_mem_nil
    | some comma =>
      rw [hcomma] at h
      obtain rfl := List.mem_singleton.1 h
      show comma.lexeme.token.endsParams = false
      rw [comma.holds]
      rfl

theorem dropWhile_ascending {us vs : List Lexeme} {l : Lexeme} (h : Ascending (us ++ l :: vs)) :
    (us ++ l :: vs).dropWhile (fun m => decide (m.span.offset ≤ l.span.offset)) = vs := by
  obtain ⟨-, hright, hus⟩ := List.pairwise_append.1 h
  have hbefore : ∀ m ∈ us ++ [l], decide (m.span.offset ≤ l.span.offset) = true := by
    intro m hm
    rcases List.mem_append.1 hm with hm | hm
    · have := hus m hm l List.mem_cons_self
      exact decide_eq_true (Nat.le_of_lt this)
    · rw [List.mem_singleton.1 hm]
      exact decide_eq_true (Nat.le_refl _)
  rw [List.append_cons, List.dropWhile_append_of_pos hbefore]
  rcases vs with _ | ⟨m, vs⟩
  · rfl
  · have := (List.pairwise_cons.1 hright).1 m List.mem_cons_self
    rw [List.dropWhile_cons_of_neg]
    simpa using this

/-- An arrow ends the parameters of a function just when its return type is written. -/
theorem FunctionTree.paramsEnd_eq {t : FunctionTree} {ls : List Lexeme} (hls : Ascending ls) (h : t.lexemes <:+: ls) :
    t.function.paramsEnd ls = some (if t.returns.isSome then .symbol .arrow else .symbol .openBrace) := by
  obtain ⟨us, vs, rfl⟩ := h
  generalize hrest : optionalLexemes ParamsTree.lexemes t.params ++ t.right.lexeme ::
    (optionalLexemes ReturnsTree.lexemes t.returns ++ t.openBrace.lexeme ::
      (optionalLeaf t.description ++ t.closeBrace.lexeme :: vs)) = rest
  have hsplit : us ++ t.lexemes ++ vs = (us ++ [t.word.lexeme]) ++ t.name.lexeme :: t.left.lexeme :: rest := by
    rw [← hrest]
    simp [lexemes]
  rw [hsplit] at hls
  have hdrop := dropWhile_ascending hls
  have hparams : ∀ u ∈ tokensOf (optionalLexemes ParamsTree.lexemes t.params), u.endsParams = false := by
    cases t.params with
    | none =>
      intro u hu
      cases hu
    | some ps => exact ps.not_endsParams
  rw [Function.paramsEnd, hsplit]
  show (tokensOf (List.dropWhile (fun m => decide (m.span.offset ≤ t.name.lexeme.span.offset)) _)).find? _ = _
  rw [hdrop, ← hrest, tokensOf_cons, t.left.holds, List.find?_cons_of_neg (by decide), tokensOf_append,
    List.find?_append, List.find?_eq_none.2 fun u hu => by rw [hparams u hu]; decide]
  rw [Option.none_or, tokensOf_cons, t.right.holds, List.find?_cons_of_neg (by decide)]
  cases t.returns with
  | none => simp [optionalLexemes, t.openBrace.holds, Token.endsParams]
  | some r => simp [optionalLexemes, ReturnsTree.lexemes, r.arrow.holds, Token.endsParams]

end Parley
