/-
What automatic fixes do. Each puts a name that a transaction declares in the place of one of its
references, so they never stand in each other's way: the text keeps its layout, and is parsed to the
schema with these references renamed.
-/
import Parley.Lint.File
import Parley.Proofs.Lint.Rename
import Parley.Proofs.Schema.Reprint
import Mathlib

namespace Parley

/-! ## Suggestions -/

theorem Suggestion.among_mem {word : String} {names : List String} {s : Suggestion} (h : among word names = some s) :
    s.name ∈ names ∧ s.name ≠ word := by
  unfold among at h
  obtain ⟨e, he, rfl⟩ := Option.map_eq_some_iff.1 h
  have he := List.mem_of_mem_head? he
  simp only [ranked, List.mem_mergeSort, List.mem_filter, List.mem_map] at he
  obtain ⟨⟨name, ⟨hname, hne⟩, rfl⟩, -⟩ := he
  exact ⟨hname, by simpa using hne⟩

/-- A namespace has the names that were declared. -/
theorem Namespace.mem_names_declareAll {category : Category} {ns : Namespace} {decls : List Declaration} {name : String}
    (h : name ∈ (ns.declareAll category decls).1.names) : name ∈ ns.names ∨ ∃ d ∈ decls, d.name = name := by
  induction decls generalizing ns with
  | nil => exact .inl h
  | cons d decls ih =>
    unfold declareAll at h
    cases hdeclare : ns.declare d.name d.span with
    | error first =>
      rw [hdeclare] at h
      rcases ih h with h | ⟨d', hd', hname⟩
      · exact .inl h
      · exact .inr ⟨d', List.mem_cons_of_mem _ hd', hname⟩
    | ok ns' =>
      rw [hdeclare] at h
      rcases ih h with h | ⟨d', hd', hname⟩
      · rw [names_of_declare hdeclare, List.mem_append] at h
        exact h.imp id fun h => ⟨d, List.mem_cons_self, (List.mem_singleton.1 h).symm⟩
      · exact .inr ⟨d', List.mem_cons_of_mem _ hd', hname⟩

theorem Transaction.declares_of_mem_names {tx : Transaction} {category : Category} {name : String}
    (h : name ∈ (tx.symbols.namespaceOf category).names) : ∃ d ∈ tx.declared category, d.name = name := by
  have hns : tx.symbols.namespaceOf category = (tx.declareAll category).1 := by cases category <;> rfl
  rw [hns] at h
  rcases Namespace.mem_names_declareAll h with h | h
  · cases h
  · exact h

/-! ## The fixes of a source -/

def Transaction.fixOf? (tx : Transaction) (issue : Issue) : Option Edit := (Diagnostic.ofIssue tx.symbols issue).fix

def Transaction.fixFor? (tx : Transaction) (x : Category × Reference) : Option Edit :=
  if tx.symbols.resolves x.1 x.2.name then none else tx.fixOf? ⟨.unresolved x.1 x.2.name, x.2.span⟩

/-- A fix puts a declared name of the category that a reference needs in its place. -/
theorem Transaction.fixFor?_some {tx : Transaction} {x : Category × Reference} {e : Edit} (h : tx.fixFor? x = some e) :
    e = .replacing x.2.span e.text ∧ e.text ≠ x.2.name ∧ ∃ d ∈ tx.declared x.1, d.name = e.text := by
  unfold fixFor? fixOf? Diagnostic.ofIssue at h
  split at h
  · cases h
  · dsimp only at h
    split at h
    · rename_i s hs
      obtain ⟨hname, hne⟩ := Suggestion.among_mem hs
      dsimp only at h
      split at h
      · cases h
        exact ⟨rfl, hne, declares_of_mem_names hname⟩
      · cases h
    · cases h

theorem Transaction.fixOf?_none {tx : Transaction} {issue : Issue} (h : ∀ category name, issue.violation ≠ .unresolved category name) :
    tx.fixOf? issue = none := by
  unfold fixOf? Diagnostic.ofIssue
  split
  · exact absurd ‹_› (h _ _)
  · rfl

mutual

theorem TypeExpr.violation_issues : ∀ type : TypeExpr, ∀ i ∈ type.issues, ∃ name, i.violation = .unknownType name
  | ⟨name, args, span⟩, i, h => by
    rw [issues, List.mem_append] at h
    rcases h with h | h
    · split at h
      · cases h
      · obtain rfl := List.mem_singleton.1 h
        exact ⟨name, rfl⟩
    · exact TypeExpr.violation_allIssues args i h

theorem TypeExpr.violation_allIssues : ∀ types : List TypeExpr, ∀ i ∈ allIssues types, ∃ name, i.violation = .unknownType name
  | type :: types, i, h => by
    rw [allIssues, List.mem_append] at h
    rcases h with h | h
    · exact TypeExpr.violation_issues type i h
    · exact TypeExpr.violation_allIssues types i h

end

namespace Transaction

variable {tx : Transaction} {issue : Issue}

theorem fixOf?_duplicate (h : issue ∈ tx.duplicateIssues) : tx.fixOf? issue = none := by
  obtain ⟨r, -, rfl⟩ := List.mem_map.1 h
  exact fixOf?_none nofun

theorem fixOf?_structure (h : issue ∈ tx.structureIssues) : tx.fixOf? issue = none := by
  rw [structureIssues, List.mem_append, List.mem_append] at h
  rcases h with (h | h) | h
  · split at h
    · obtain rfl := List.mem_singleton.1 h
      exact fixOf?_none nofun
    · cases h
  · split at h
    · obtain rfl := List.mem_singleton.1 h
      exact fixOf?_none nofun
    · cases h
  · unfold flowIssues at h
    split at h
    · cases h
    split at h
    · obtain rfl := List.mem_singleton.1 h
      exact fixOf?_none nofun
    · obtain ⟨b, -, hb⟩ := List.mem_filterMap.1 h
      split at hb <;> cases hb
      exact fixOf?_none nofun

/-- A call that does not fit its function is at odds with the number of parameters. -/
theorem violation_arity (h : issue ∈ tx.arityIssues) : ∃ name expected actual, issue.violation = .arity name expected actual := by
  obtain ⟨s, -, hs⟩ := List.mem_filterMap.1 h
  split at hs
  · obtain ⟨f, -, hf⟩ := Option.bind_eq_some_iff.1 hs
    split at hf <;> cases hf
    exact ⟨_, _, _, rfl⟩
  · cases hs

theorem fixOf?_arity (h : issue ∈ tx.arityIssues) : tx.fixOf? issue = none := by
  obtain ⟨name, expected, actual, hviolation⟩ := violation_arity h
  exact fixOf?_none fun _ _ h => by rw [hviolation] at h; cases h

theorem fixOf?_type (h : issue ∈ tx.typeIssues) : tx.fixOf? issue = none := by
  obtain ⟨type, -, h⟩ := List.mem_flatMap.1 h
  obtain ⟨name, hname⟩ := type.violation_issues issue h
  exact fixOf?_none fun _ _ h => by rw [hname] at h; cases h

/-- Only references have fixes. -/
theorem fixes_eq (tx : Transaction) : tx.issues.filterMap tx.fixOf? = tx.references.filterMap tx.fixFor? := by
  have hduplicate : tx.duplicateIssues.filterMap tx.fixOf? = [] := List.filterMap_eq_nil_iff.2 fun _ => fixOf?_duplicate
  have hstructure : tx.structureIssues.filterMap tx.fixOf? = [] := List.filterMap_eq_nil_iff.2 fun _ => fixOf?_structure
  have harity : tx.arityIssues.filterMap tx.fixOf? = [] := List.filterMap_eq_nil_iff.2 fun _ => fixOf?_arity
  have htype : tx.typeIssues.filterMap tx.fixOf? = [] := List.filterMap_eq_nil_iff.2 fun _ => fixOf?_type
  have hreference : tx.referenceIssues.filterMap tx.fixOf? = tx.references.filterMap tx.fixFor? := by
    rw [referenceIssues, List.filterMap_filterMap]
    congr 1
    funext x
    unfold fixFor?
    dsimp only
    split <;> rfl
  rw [issues]
  simp only [List.filterMap_append, hduplicate, hstructure, harity, htype, hreference, List.append_nil, List.nil_append]

end Transaction

theorem Schema.fixes_issuesAfter (seen : Namespace) (txs : List Transaction) :
    (issuesAfter seen txs).flatMap (fun x => x.2.filterMap x.1.fixOf?) = txs.flatMap fun tx => tx.references.filterMap tx.fixFor? := by
  induction txs generalizing seen with
  | nil => rfl
  | cons tx txs ih =>
    unfold issuesAfter
    split
    · rw [List.flatMap_cons, List.flatMap_cons, ih, tx.fixes_eq]
    · rw [List.flatMap_cons, List.flatMap_cons, ih, List.filterMap_cons_none rfl, tx.fixes_eq]

/-- The fixes of a schema are those of its references. -/
theorem Schema.fixes_perm (s : Schema) :
    (fixesOf s.diagnostics).Perm (s.references.filterMap fun y => y.1.fixFor? y.2) := by
  refine ((List.mergeSort_perm _ _).filterMap _).trans (.of_eq ?_)
  have hreferences : (s.references.filterMap fun y => y.1.fixFor? y.2) =
      s.transactions.flatMap fun tx => tx.references.filterMap tx.fixFor? := by
    rw [references, List.filterMap_flatMap]
    simp only [List.filterMap_map]
    rfl
  rw [hreferences, ← fixes_issuesAfter .empty, List.filterMap_flatMap]
  congr 1
  funext x
  have hstyle : x.1.styleIssues.filterMap (fun i => (Diagnostic.ofStyleIssue i).fix) = [] := by
    rw [List.filterMap_eq_nil_iff]
    exact fun _ _ => rfl
  show (x.2.map (Diagnostic.ofIssue x.1.symbols) ++ x.1.styleIssues.map Diagnostic.ofStyleIssue).filterMap (·.fix) = _
  rw [List.filterMap_append, List.filterMap_map, List.filterMap_map]
  exact (congrArg (_ ++ ·) hstyle).trans (List.append_nil _)

theorem lint_of_parse {source : String} {s : Schema} (h : parse source = .ok s) : lint source = s.diagnostics := by
  obtain ⟨ls, htok, hparse⟩ := parse_ok_iff.1 h
  unfold lint recover
  rw [htok]
  simp only [hparse]

/-- A source with fixes is parsed, and they are those of its schema. -/
theorem lint_of_fixes {source : String} (h : fixesOf (lint source) ≠ []) :
    ∃ s, parse source = .ok s ∧ lint source = s.diagnostics := by
  cases hparse : parse source with
  | ok s => exact ⟨s, rfl, lint_of_parse hparse⟩
  | error e =>
    -- what is not parsed has syntax errors only, and these have no fixes
    refine absurd ?_ h
    unfold lint recover
    unfold parse at hparse
    rw [fixesOf, List.filterMap_eq_nil_iff]
    intro d hd
    cases htok : tokenize source with
    | error e =>
      rw [htok] at hd
      obtain rfl := List.mem_singleton.1 hd
      rfl
    | ok ls =>
      rw [htok] at hparse hd
      dsimp only at hparse hd
      cases hstrict : parseTokens source ls with
      | ok s =>
        rw [hstrict] at hparse
        cases hparse
      | error strict =>
        rw [hstrict] at hd
        obtain ⟨e, -, rfl⟩ := List.mem_map.1 hd
        cases e <;> rfl

/-! ## Putting fixes in -/

/-- The names that edits put in, by where the edits start. -/
def renamingOf (edits : List Edit) : Renaming := fun n => (edits.find? (·.start == n)).map (·.text)

theorem renamingOf_eq {edits : List Edit} (h : (edits.map (·.start)).Nodup) {e : Edit} (he : e ∈ edits) :
    renamingOf edits e.start = some e.text := by
  cases hfind : edits.find? (·.start == e.start) with
  | none => simpa using List.find?_eq_none.1 hfind e he
  | some e' =>
    have hstart : e'.start = e.start := by simpa using List.find?_some hfind
    obtain rfl := List.inj_on_of_nodup_map h (List.mem_of_find?_eq_some hfind) he hstart
    rw [renamingOf, hfind, Option.map_some]

theorem exists_of_renamingOf {edits : List Edit} {n : Nat} {word : String} (h : renamingOf edits n = some word) :
    ∃ e ∈ edits, e.start = n ∧ e.text = word := by
  obtain ⟨e, he, rfl⟩ := Option.map_eq_some_iff.1 h
  exact ⟨e, List.mem_of_find?_eq_some he, by simpa using List.find?_some he, rfl⟩

/-- What is collected from a list and keeps a key keeps the order of the keys. -/
theorem filterMap_map_sublist {α β γ : Type} {g : α → Option β} {k : β → γ} {h : α → γ}
    (hg : ∀ a b, g a = some b → k b = h a) (l : List α) : ((l.filterMap g).map k).Sublist (l.map h) := by
  induction l with
  | nil => exact .slnil
  | cons a l ih =>
    rw [List.filterMap_cons, List.map_cons]
    split
    · exact ih.cons _
    · rename_i b hb
      rw [List.map_cons, hg a b hb]
      exact ih.cons_cons _

/-- Marked lexemes stand at different places if all do. -/
theorem nodup_marks {ms : List (Lexeme × Bool)} (h : (ms.map (·.1.span.offset)).Nodup) :
    ((marks ms).map (·.span.offset)).Nodup := by
  refine h.sublist (filterMap_map_sublist (fun x l hl => ?_) ms)
  split at hl <;> cases hl
  rfl

section Fixes

variable {xs : List Scan.Stretch} {t : SchemaTree} {edits : List Edit}

theorem nodup_lexemes (hcut : Scan.Cut xs []) (ht : Scan.placed .first xs = t.lexemes) :
    (t.lexemes.map (·.span.offset)).Nodup := by
  obtain ⟨hin, hpair⟩ := Scan.placed_places .first xs hcut.text_ne_nil
  rw [← ht]
  refine List.pairwise_map.2 (hpair.imp_of_mem fun {l m} hl _ hlm => ?_)
  have := (hin l hl).2.2
  rw [Span.stop] at hlm
  omega

theorem nodup_offsets (hcut : Scan.Cut xs []) (ht : Scan.placed .first xs = t.lexemes) :
    (t.marked.map (·.1.span.offset)).Nodup := by
  have hnodup := nodup_lexemes hcut ht
  rwa [← t.map_fst_marked, List.map_map] at hnodup

/-- References stand at different places. -/
theorem nodup_references (hoffsets : (t.marked.map (·.1.span.offset)).Nodup) :
    (t.schema.references.map (·.2.2.span.offset)).Nodup := by
  have hmarks := nodup_marks hoffsets
  have hperm := t.spots_marked.map fun x => x.2.offset
  simp only [List.map_map] at hperm
  exact (hperm.nodup_iff).1 hmarks

variable (hoffsets : (t.marked.map (·.1.span.offset)).Nodup)
  (hedits : edits.Perm (t.schema.references.filterMap fun y => y.1.fixFor? y.2))

include hoffsets hedits

theorem nodup_starts : (edits.map (·.start)).Nodup := by
  refine ((hedits.map _).nodup_iff).2 ((nodup_references hoffsets).sublist (filterMap_map_sublist (fun y e he => ?_) _))
  rw [(Transaction.fixFor?_some he).1]
  rfl

omit hoffsets

/-- A fix is made for a reference, which has a lexeme. -/
theorem exists_reference {e : Edit} (he : e ∈ edits) : ∃ y ∈ t.schema.references, y.1.fixFor? y.2 = some e ∧
    ∃ l, (l, true) ∈ t.marked ∧ l.token = .name y.2.2.name ∧ l.span = y.2.2.span := by
  obtain ⟨y, hy, hfix⟩ := List.mem_filterMap.1 (hedits.subset he)
  refine ⟨y, hy, hfix, ?_⟩
  obtain ⟨l, hl, hspot⟩ := List.mem_map.1 (t.spots_marked.symm.subset (List.mem_map_of_mem hy))
  obtain ⟨htoken, hspan⟩ := Prod.mk.inj hspot
  exact ⟨l, mem_marks_iff.1 hl, htoken, hspan⟩

include hoffsets

/-- No fix touches a lexeme that is not a reference. -/
theorem respelledMarks_eq : respelledMarks (renamingOf edits) t.marked = t.lexemes.map (Lexeme.respelled (renamingOf edits)) := by
  rw [respelledMarks_eq_map, t.map_fst_marked]
  intro l hl
  rw [Option.eq_none_iff_forall_ne_some]
  intro word hword
  obtain ⟨e, he, hstart, -⟩ := exists_of_renamingOf hword
  obtain ⟨y, hy, hfix, l', hl', -, hspan⟩ := exists_reference hedits he
  have hsame : l'.span.offset = l.span.offset := by
    rw [hspan, ← hstart, (Transaction.fixFor?_some hfix).1]
    rfl
  cases List.inj_on_of_nodup_map hoffsets hl' hl hsame

theorem edits_perm (hcut : Scan.Cut xs []) (ht : Scan.placed .first xs = t.lexemes) :
    edits.Perm (Scan.editsOf (renamingOf edits) 0 xs) := by
  have hstarts := nodup_starts hoffsets hedits
  have hnodup := Scan.nodup_editsOf (ρ := renamingOf edits) 0 hcut.text_ne_nil
  -- both lists are free of repetitions, so it is enough that they have the same edits
  refine (List.perm_ext_iff_of_nodup hstarts.of_map hnodup).2 fun e => ?_
  rw [show (0 : Nat) = Position.first.offset from rfl, Scan.mem_editsOf, ht]
  constructor
  · intro he
    obtain ⟨y, hy, hfix, l, hl, htoken, hspan⟩ := exists_reference hedits he
    have hplace := (Transaction.fixFor?_some hfix).1
    have hstart : e.start = l.span.offset := by rw [hplace, hspan]; rfl
    have hstop : e.stop = l.span.stop := by rw [hplace, hspan]; rfl
    exact ⟨l, t.map_fst_marked ▸ List.mem_map_of_mem hl, ⟨_, htoken⟩, hstart ▸ renamingOf_eq hstarts he, hstart, hstop⟩
  · rintro ⟨l, hl, ⟨word, htoken⟩, hρ, hstart, hstop⟩
    obtain ⟨e', he', hstart', htext⟩ := exists_of_renamingOf hρ
    obtain ⟨y, hy, hfix, l', hl', -, hspan⟩ := exists_reference hedits he'
    have hplace := (Transaction.fixFor?_some hfix).1
    rw [← t.map_fst_marked] at hl
    obtain ⟨⟨l, b⟩, hx, rfl⟩ := List.mem_map.1 hl
    have hsame : l'.span.offset = l.span.offset := by rw [hspan, ← hstart', hplace]; rfl
    -- two lexemes at one offset are the same, so `l` is a marked one
    have hmarked : (l', true) = (l, b) := List.inj_on_of_nodup_map hoffsets hl' hx hsame
    cases hmarked
    have hstop' : e'.stop = l'.span.stop := by rw [hplace, hspan]; rfl
    have heq : e = e' := by
      rcases e with ⟨start, stop, text⟩
      rcases e' with ⟨start', stop', text'⟩
      rw [Edit.mk.injEq]
      exact ⟨hstart.trans hstart'.symm, hstop.trans hstop'.symm, htext.symm⟩
    exact heq ▸ he'

end Fixes

theorem Transaction.WellFormed.declared {tx : Transaction} (h : tx.WellFormed) (category : Category) :
    ∀ d ∈ tx.declared category, IsName d.name := by
  obtain ⟨-, hactors, hmessages, hfunctions, hblocks⟩ := h
  intro d hd
  have hd := (List.mem_filter.1 hd).1
  simp only [declarations, List.mem_append, List.mem_map] at hd
  rcases hd with ((⟨a, ha, rfl⟩ | ⟨m, hm, rfl⟩) | ⟨b, hb, rfl⟩) | ⟨f, hf, rfl⟩
  · exact hactors a ha
  · exact (hmessages m hm).1
  · exact (hblocks b hb).1
  · exact (hfunctions f hf).1

/-- Edits that put names in for names are applied, and what comes of them is parsed like any derivation of its tokens. -/
theorem parse_edited {ρ : Renaming} {source : String} {xs : List Scan.Stretch} {t u : SchemaTree} {edits : List Edit}
    (hcut : Scan.Cut xs []) (htext : Scan.textOf xs = source.toList) (htok : tokenize source = .ok t.lexemes)
    (hρ : ∀ n, ∀ word ∈ ρ n, IsName word) (hedits : edits.Perm (Scan.editsOf ρ 0 xs))
    (hu : tokensOf u.lexemes = t.lexemes.map (Lexeme.respelled ρ)) :
    ∃ (fixed : String) (u' : SchemaTree), Edit.applyAll source edits = .ok fixed ∧ Respelled ρ source fixed ∧
      tokenize fixed = .ok u'.lexemes ∧ tokensOf u'.lexemes = t.lexemes.map (Lexeme.respelled ρ) ∧ parse fixed = .ok u'.schema ∧
      u'.schema.bare = u.schema.bare := by
  have hrespelled : Respelled ρ source (String.ofList (Scan.textOf (Scan.respelled ρ 0 xs))) :=
    ⟨xs, hcut, htext, hcut.respelled hρ 0, String.toList_ofList.symm⟩
  obtain ⟨ls', htok', htokens⟩ := hrespelled.tokenize htok
  obtain ⟨u', rfl, hbare⟩ := Grammar.derivation_of_tokens (hu.trans htokens.symm)
  exact ⟨_, u', Scan.applyAll_editsOf hcut.text_ne_nil htext hedits, hrespelled, htok', htokens,
    parse_ok_iff_derivation.2 ⟨u', htok', rfl⟩, hbare⟩

/-- The fixes of a schema are applied to the source it was parsed from, and rename its references. -/
theorem fixes_rename {source : String} {s : Schema} {edits : List Edit} (hparse : parse source = .ok s)
    (hedits : edits.Perm (s.references.filterMap fun y => y.1.fixFor? y.2)) :
    ∃ fixed s' ls ls', Edit.applyAll source edits = .ok fixed ∧
      parse fixed = .ok s' ∧ s'.bare = (s.renamed (renamingOf edits)).bare ∧
      tokenize source = .ok ls ∧ tokenize fixed = .ok ls' ∧ tokensOf ls' = ls.map (Lexeme.respelled (renamingOf edits)) ∧
      Respelled (renamingOf edits) source fixed ∧ (edits.map (·.start)).Nodup ∧
      ∀ e ∈ edits, ∃ y ∈ s.references, y.1.fixFor? y.2 = some e ∧ ∃ l ∈ ls, l.token = .name y.2.2.name ∧ l.span = y.2.2.span := by
  have hwf := wellFormed_of_parse hparse
  obtain ⟨t, htok, rfl⟩ := parse_ok_iff_derivation.1 hparse
  obtain ⟨xs, hcut, htext, hplaced⟩ := Scan.tokenize_ok_iff.1 htok
  have hoffsets := nodup_offsets hcut hplaced
  -- the names put in are declared in a parsed schema, so each is one token
  have hnames : ∀ n, ∀ word ∈ renamingOf edits n, IsName word := by
    intro n word hword
    obtain ⟨e, he, -, rfl⟩ := exists_of_renamingOf hword
    obtain ⟨y, hy, hfix, -⟩ := exists_reference hedits he
    obtain ⟨-, -, d, hd, hname⟩ := Transaction.fixFor?_some hfix
    obtain ⟨tx, htx, hy⟩ := List.mem_flatMap.1 hy
    obtain ⟨x, -, rfl⟩ := List.mem_map.1 hy
    exact hname ▸ (hwf.2 tx htx).declared _ d hd
  -- the renamed derivation has the tokens of the new text, so that is what is read back
  have hderivation : tokensOf (t.renamed (renamingOf edits)).lexemes = t.lexemes.map (Lexeme.respelled (renamingOf edits)) := by
    rw [t.tokens_renamed, respelledMarks_eq hoffsets hedits]
  obtain ⟨fixed, t', happly, hrespelled, htok', htokens, hparse', hbare⟩ :=
    parse_edited hcut htext htok hnames (edits_perm hoffsets hedits hcut hplaced) hderivation
  refine ⟨fixed, t'.schema, t.lexemes, t'.lexemes, happly, hparse', by rw [hbare, t.schema_renamed], htok, htok', htokens,
    hrespelled, nodup_starts hoffsets hedits, fun e he => ?_⟩
  obtain ⟨y, hy, hfix, l, hl, hspot⟩ := exists_reference hedits he
  exact ⟨y, hy, hfix, l, t.map_fst_marked ▸ List.mem_map_of_mem hl, hspot⟩

/-- The text of a source with every fix put in. -/
def autofixed (source : String) : String := (Edit.applyAll source (fixesOf (lint source))).toOption.getD source

theorem autofixed_of_no_fixes {source : String} (h : fixesOf (lint source) = []) :
    Edit.applyAll source (fixesOf (lint source)) = .ok source ∧ autofixed source = source := by
  have hnone : Edit.applyAll source [] = .ok source := by
    simp [Edit.applyAll, Edit.firstOverlap?]
  rw [autofixed, h, hnone]
  exact ⟨rfl, rfl⟩

/-- Putting in the fixes of a source is never refused. -/
theorem applyAll_autofixed (source : String) : Edit.applyAll source (fixesOf (lint source)) = .ok (autofixed source) := by
  by_cases hne : fixesOf (lint source) = []
  · obtain ⟨happly, hsame⟩ := autofixed_of_no_fixes hne
    rw [happly, hsame]
  · obtain ⟨s, hparse, hlint⟩ := lint_of_fixes hne
    have hedits := s.fixes_perm
    rw [← hlint] at hedits
    obtain ⟨fixed, _, _, _, happly, -⟩ := fixes_rename hparse hedits
    rw [autofixed, happly]
    rfl

/-- Automatic fixes are never refused, and rename references: the text keeps its gaps and its other
tokens, and is parsed to the schema in which just the fixed references are renamed, each to a name
that its own transaction declares in the category it needs. -/
theorem autofix_renames_references :
    (∀ source : String,
      let edits := fixesOf (lint source)
      let fixed := autofixed source
      let ρ := renamingOf edits
      Edit.applyAll source edits = .ok fixed ∧
      (edits ≠ [] → ∃ s s' ls ls',
        parse source = .ok s ∧ parse fixed = .ok s' ∧ s'.bare = (s.renamed ρ).bare ∧
        tokenize source = .ok ls ∧ tokenize fixed = .ok ls' ∧ tokensOf ls' = ls.map (Lexeme.respelled ρ) ∧
        Respelled ρ source fixed ∧
        (edits.map (·.start)).Nodup ∧
        ∀ e ∈ edits, ∃ y ∈ s.references, e = .replacing y.2.2.span e.text ∧ e.text ≠ y.2.2.name ∧
          (∃ d ∈ y.1.declared y.2.1, d.name = e.text) ∧ ∃ l ∈ ls, l.token = .name y.2.2.name ∧ l.span = y.2.2.span)) ∧
    ∀ (m : Type → Type) [Monad m] [FileAccess m] (path : String) (fix : Bool),
      (lintFile path fix : m FileReport) = do
        match ← FileAccess.read path with
        | .error e => return ⟨path, [.ofFile (.unreadable e)], 0, 0⟩
        | .ok source =>
          let fixes := fixesOf (lint source)
          if !fix || fixes.isEmpty then return ⟨path, lint source, fixes.length, 0⟩
          match ← FileAccess.replace path (autofixed source) with
          | .error e => return ⟨path, lint source ++ [.ofFile (.unwritable e)], fixes.length, 0⟩
          | .ok () => return ⟨path, lint (autofixed source), fixes.length, fixes.length⟩ := by
  refine ⟨fun source => ⟨applyAll_autofixed source, fun hne => ?_⟩, fun m _ _ path fix => ?_⟩
  · obtain ⟨s, hparse, hlint⟩ := lint_of_fixes hne
    have hedits := s.fixes_perm
    rw [← hlint] at hedits
    obtain ⟨fixed, s', ls, ls', happly, hparse', hbare, htok, htok', htokens, hrespelled, hnodup, hall⟩ :=
      fixes_rename hparse hedits
    obtain rfl : fixed = autofixed source := Except.ok.inj (happly.symm.trans (applyAll_autofixed source))
    refine ⟨s, s', ls, ls', hparse, hparse', hbare, htok, htok', htokens, hrespelled, hnodup, fun e he => ?_⟩
    obtain ⟨y, hy, hfix, hl⟩ := hall e he
    obtain ⟨hplace, hne, hdeclared⟩ := Transaction.fixFor?_some hfix
    exact ⟨y, hy, hplace, hne, hdeclared, hl⟩
  · unfold lintFile
    congr 1
    funext read
    rcases read with e | source
    · rfl
    · dsimp only
      rewrite [applyAll_autofixed source]
      rfl

/-- The derivation of `transaction T{block A{goto B}}`. -/
def strayGoto : SchemaTree where
  first :=
    { header := ⟨.placed () "transaction" ⟨0, 11, 1, 1⟩, .placed "T" "T" ⟨12, 1, 1, 13⟩, none, .placed () "\x7b" ⟨13, 1, 1, 14⟩⟩
      declarations := [.block ⟨none, .placed () "block" ⟨14, 5, 1, 15⟩, .placed "A" "A" ⟨20, 1, 1, 21⟩,
        .placed () "\x7b" ⟨21, 1, 1, 22⟩,
        [(⟨.goto (.placed () "goto" ⟨22, 4, 1, 23⟩) (.placed "B" "B" ⟨27, 1, 1, 28⟩), none⟩, none)],
        .placed () "\x7d" ⟨28, 1, 1, 29⟩⟩]
      right := .placed () "\x7d" ⟨29, 1, 1, 30⟩ }
  more := []

/-- The only block that there is to go to is put in, and the text is parsed again. -/
theorem autofix_of_strayGoto :
    fixesOf (lint "transaction T\x7bblock A\x7bgoto B\x7d\x7d") = [⟨27, 28, "A"⟩] ∧
      autofixed "transaction T\x7bblock A\x7bgoto B\x7d\x7d" = "transaction T\x7bblock A\x7bgoto A\x7d\x7d" ∧
      ∃ s, parse (autofixed "transaction T\x7bblock A\x7bgoto B\x7d\x7d") = .ok s := by
  have htokens : tokenize "transaction T\x7bblock A\x7bgoto B\x7d\x7d" = .ok strayGoto.lexemes :=
    Scan.tokenize_ok_iff.2 ⟨[⟨some (.keyword .transaction), "transaction".toList⟩, ⟨none, [' ']⟩,
      ⟨some (.name "T"), ['T']⟩, ⟨some (.symbol .openBrace), ['\x7b']⟩, ⟨some (.keyword .block), "block".toList⟩,
      ⟨none, [' ']⟩, ⟨some (.name "A"), ['A']⟩, ⟨some (.symbol .openBrace), ['\x7b']⟩,
      ⟨some (.keyword .goto), "goto".toList⟩, ⟨none, [' ']⟩, ⟨some (.name "B"), ['B']⟩,
      ⟨some (.symbol .closeBrace), ['\x7d']⟩, ⟨some (.symbol .closeBrace), ['\x7d']⟩],
      ⟨⟨'t', "ransaction".toList, by decide, by decide⟩, ⟨' ', [], rfl, by decide⟩, ⟨'T', [], rfl, by decide⟩,
        ⟨'\x7b', [], rfl, by decide⟩, ⟨'b', "lock".toList, by decide, by decide⟩, ⟨' ', [], rfl, by decide⟩,
        ⟨'A', [], rfl, by decide⟩, ⟨'\x7b', [], rfl, by decide⟩, ⟨'g', "oto".toList, by decide, by decide⟩,
        ⟨' ', [], rfl, by decide⟩, ⟨'B', [], rfl, by decide⟩, ⟨'\x7d', [], rfl, by decide⟩,
        ⟨'\x7d', [], rfl, by decide⟩, trivial⟩, by decide, by decide⟩
  have hparse := parse_ok_iff_derivation.2 ⟨strayGoto, htokens, rfl⟩
  have hfixes : fixesOf (lint "transaction T\x7bblock A\x7bgoto B\x7d\x7d") = [⟨27, 28, "A"⟩] := by
    have hperm := strayGoto.schema.fixes_perm
    rw [show (strayGoto.schema.references.filterMap fun y => y.1.fixFor? y.2) = [⟨27, 28, "A"⟩] by cbv] at hperm
    rw [lint_of_parse hparse]
    exact hperm.eq_singleton
  refine ⟨hfixes, ?_, ?_⟩
  · rw [autofixed, hfixes, Edit.applyAll_singleton (by decide), Except.toOption, Option.getD_some]
    decide
  · obtain ⟨_, s, _, _, -, hread, -⟩ := (autofix_renames_references.1 _).2 (by rw [hfixes]; exact List.cons_ne_nil _ _)
    exact ⟨s, hread⟩

end Parley
