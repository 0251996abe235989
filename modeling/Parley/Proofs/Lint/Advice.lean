/-
What naming warnings advise. A warning shows the name respelled in its convention. Where that is a name,
the advice can be followed: with the name put in, the text is parsed again and has the naming warnings it
had but for this one. It is a name unless the declared one leads with a digit or has no characters but
underscores, or hides a reserved word that snake case brings out.
-/
import Parley.Proofs.Lint.Places
import Parley.Proofs.Lint.Relabel
import Parley.Proofs.Text.Casing

namespace Parley

/-! ## Naming warnings -/

/-- What a naming warning is about: what is named, and its name. -/
def Diagnostic.misspelling? (d : Diagnostic) : Option (Named × String) :=
  match d.finding with
  | .style (.misspelled what name) => some (what, name)
  | _ => none

/-- The naming warnings of a source. -/
def misspellings (source : String) : List (Named × String) := (lint source).filterMap Diagnostic.misspelling?

/-- What a declared name gives a naming warning about. -/
def misspelling? (what : Named) (name : String) : Option (Named × String) :=
  if what.casing.accepts name then none else some (what, name)

theorem Diagnostic.misspelling?_ofIssue (symbols : Symbols) (issue : Issue) :
    (Diagnostic.ofIssue symbols issue).misspelling? = none := by
  rw [misspelling?, finding_ofIssue]

theorem Diagnostic.misspelling?_bare (d : Diagnostic) : d.bare.misspelling? = d.misspelling? := by
  rcases d with ⟨_ | _ | _ | _ | _ | _, _⟩ <;> rfl

theorem Transaction.misspellings_diagnostics (tx : Transaction) (issues : List Issue) :
    (tx.diagnostics issues).filterMap Diagnostic.misspelling? = tx.declaredNames.filterMap fun x => misspelling? x.1 x.2.1 := by
  have hissues : (issues.map (Diagnostic.ofIssue tx.symbols)).filterMap Diagnostic.misspelling? = [] := by
    rw [List.filterMap_map, List.filterMap_eq_nil_iff]
    exact fun issue _ => Diagnostic.misspelling?_ofIssue _ issue
  have hunused : (tx.unusedIssues.map Diagnostic.ofStyleIssue).filterMap Diagnostic.misspelling? = [] := by
    rw [List.filterMap_map, List.filterMap_eq_nil_iff]
    intro issue hissue
    obtain ⟨decl, -, -, rfl⟩ := Transaction.mem_unusedIssues_iff.1 hissue
    rfl
  have hnaming : (tx.namingIssues.map Diagnostic.ofStyleIssue).filterMap Diagnostic.misspelling? =
      tx.declaredNames.filterMap fun x => misspelling? x.1 x.2.1 := by
    rw [List.filterMap_map, namingIssues, List.filterMap_filterMap]
    congr 1
    funext x
    unfold misspelling?
    dsimp only
    split <;> rfl
  rw [diagnostics, styleIssues, List.map_append, List.filterMap_append, List.filterMap_append, hissues, hunused, hnaming,
    List.nil_append, List.append_nil]

/-- The naming warnings of a schema are about the names that its derivation declares. -/
theorem SchemaTree.misspellings_perm (t : SchemaTree) : (t.schema.diagnostics.filterMap Diagnostic.misspelling?).Perm
    (t.declares.filterMap fun x => misspelling? x.1 x.2.value) := by
  have hknows : Namespace.empty.Knows Transaction.name Transaction.span [] := fun _ => rfl
  have hfindings : t.schema.findings.filterMap Diagnostic.misspelling? =
      t.schema.transactions.flatMap fun tx => tx.declaredNames.filterMap fun x => misspelling? x.1 x.2.1 := by
    rw [Schema.findings, Schema.issuesByTransaction, Schema.issuesAfter_eq hknows, List.flatMap_map, List.filterMap_flatMap]
    simp only [Transaction.misspellings_diagnostics]
    conv_rhs => rw [← map_snd_withEarlier [] t.schema.transactions, List.flatMap_map]
  refine (t.schema.diagnostics_perm.filterMap _).trans (.trans (.of_eq hfindings) ?_)
  rw [schema, List.flatMap_map, declares, List.filterMap_flatMap]
  refine List.Perm.flatMap_left _ fun u _ => ?_
  have hentries := u.declaredNames_perm.filterMap fun x => misspelling? x.1 x.2.1
  rwa [List.filterMap_map] at hentries

theorem misspellings_of_parse {source : String} {s : Schema} {t : SchemaTree} (hparse : parse source = .ok s)
    (hbare : s.bare = t.schema.bare) :
    (misspellings source).Perm (t.declares.filterMap fun x => misspelling? x.1 x.2.value) := by
  have hdiagnostics := (Schema.diagnostics_of_bare_eq hbare).filterMap Diagnostic.misspelling?
  simp only [List.filterMap_map, Function.comp_def, Diagnostic.misspelling?_bare] at hdiagnostics
  rw [misspellings, lint_of_parse hparse]
  exact hdiagnostics.trans t.misspellings_perm

/-! ## One name respelled -/

/-- Puts a name in at one place. -/
def renamingAt (offset : Nat) (word : String) : Renaming := fun n => if n = offset then some word else none

theorem NameLeaf.value_renamedAt (leaf : NameLeaf) (offset : Nat) (word : String) :
    (leaf.renamed (renamingAt offset word)).value = if leaf.lexeme.span.offset = offset then word else leaf.value := by
  show (if _ then some word else none).getD leaf.value = _
  split <;> rfl

section Single

variable {t : SchemaTree} {what : Named} {leaf : NameLeaf} (hnodup : (t.lexemes.map (·.span.offset)).Nodup)
  (hleaf : (what, leaf) ∈ t.declares)

theorem marked_of_declares (hleaf : (what, leaf) ∈ t.declares) : (leaf.lexeme, true) ∈ t.declaredMarked := by
  have hmem : leaf.lexeme ∈ marks t.declaredMarked := by
    rw [t.marks_declaredMarked]
    exact List.mem_map_of_mem hleaf
  exact mem_marks_iff.1 hmem

include hnodup hleaf

/-- No other lexeme has the place of a declared name. -/
theorem respelledMarks_at (word : String) : respelledMarks (renamingAt leaf.lexeme.span.offset word) t.declaredMarked =
    t.lexemes.map (Lexeme.respelled (renamingAt leaf.lexeme.span.offset word)) := by
  rw [← t.map_fst_declaredMarked, List.map_map] at hnodup
  rw [respelledMarks_eq_map, t.map_fst_declaredMarked]
  intro l hl
  refine if_neg fun hsame => ?_
  cases List.inj_on_of_nodup_map hnodup hl (marked_of_declares hleaf) hsame

theorem editsOf_at {xs : List Scan.Stretch} (hcut : Scan.Cut xs []) (hplaced : Scan.placed .first xs = t.lexemes)
    (word : String) :
    [Edit.replacing leaf.lexeme.span word].Perm (Scan.editsOf (renamingAt leaf.lexeme.span.offset word) 0 xs) := by
  have hmem : leaf.lexeme ∈ t.lexemes := t.map_fst_declaredMarked ▸ List.mem_map_of_mem (marked_of_declares hleaf)
  refine (List.perm_ext_iff_of_nodup (List.nodup_singleton _) (Scan.nodup_editsOf 0 hcut.text_ne_nil)).2 fun e => ?_
  rw [show (0 : Nat) = Position.first.offset from rfl, Scan.mem_editsOf, hplaced, List.mem_singleton]
  constructor
  · rintro rfl
    exact ⟨leaf.lexeme, hmem, ⟨_, leaf.holds⟩, if_pos rfl, rfl, rfl⟩
  · rintro ⟨l, hl, -, hword, hstart, hstop⟩
    unfold renamingAt at hword
    split at hword
    · obtain rfl := List.inj_on_of_nodup_map hnodup hl hmem ‹_›
      obtain rfl := Option.some.inj hword
      rcases e with ⟨start, stop, text⟩
      obtain ⟨rfl, rfl⟩ : start = _ ∧ stop = _ := ⟨hstart, hstop⟩
      rfl
    · cases hword

/-- With an accepted name in its place, a derivation declares what it did but for the misspelled one. -/
theorem misspellings_at {word : String} (hbad : what.casing.accepts leaf.value = false)
    (hgood : what.casing.accepts word = true) :
    (t.declares.filterMap fun x => misspelling? x.1 x.2.value).Perm
      ((what, leaf.value) :: (t.relabelled (renamingAt leaf.lexeme.span.offset word)).declares.filterMap fun x =>
        misspelling? x.1 x.2.value) := by
  have hoffsets : (t.declares.map fun x => x.2.lexeme.span.offset).Nodup := by
    rw [← t.map_fst_declaredMarked, List.map_map] at hnodup
    have hmarks := nodup_marks hnodup
    rwa [t.marks_declaredMarked, List.map_map] at hmarks
  obtain ⟨before, behind, hsplit⟩ := List.append_of_mem hleaf
  rw [hsplit, List.map_append, List.map_cons] at hoffsets
  obtain ⟨hne, -⟩ := List.nodup_cons.1 (List.nodup_middle.1 hoffsets)
  -- the others keep their names, since they have places of their own
  have hkeep : ∀ x ∈ before ++ behind, x.2.lexeme.span.offset ≠ leaf.lexeme.span.offset := by
    intro x hx heq
    refine hne (heq ▸ ?_)
    rw [← List.map_append]
    exact List.mem_map_of_mem (f := fun x : Named × NameLeaf => x.2.lexeme.span.offset) hx
  have hold : misspelling? what leaf.value = some (what, leaf.value) := by
    rw [misspelling?, hbad]
    rfl
  have hnew : misspelling? what word = none := if_pos hgood
  rw [t.declares_relabelled, List.filterMap_map, hsplit]
  simp only [List.filterMap_append, List.filterMap_cons, Function.comp_def, NameLeaf.value_renamedAt, if_true, hold, hnew]
  have hrest : ∀ xs ⊆ before ++ behind, xs.filterMap (fun x => misspelling? x.1
      (if x.2.lexeme.span.offset = leaf.lexeme.span.offset then word else x.2.value)) =
        xs.filterMap fun x => misspelling? x.1 x.2.value := by
    intro xs hxs
    exact List.filterMap_congr fun x hx => by rw [if_neg (hkeep x (hxs hx))]
  rw [hrest before (List.subset_append_left _ _), hrest behind (List.subset_append_right _ _)]
  exact List.perm_middle

omit hnodup in
/-- A name put in for a declared one is declared in its place. -/
theorem parse_renamedAt {source : String} {xs : List Scan.Stretch} (hcut : Scan.Cut xs [])
    (htext : Scan.textOf xs = source.toList) (hplaced : Scan.placed .first xs = t.lexemes) {word : String} (hword : IsName word) :
    ∃ (fixed : String) (u : SchemaTree), Edit.applyAll source [.replacing leaf.lexeme.span word] = .ok fixed ∧
      parse fixed = .ok u.schema ∧ u.schema.bare = (t.relabelled (renamingAt leaf.lexeme.span.offset word)).schema.bare := by
  have hnodup := nodup_lexemes hcut hplaced
  have hnames : ∀ n, ∀ new ∈ renamingAt leaf.lexeme.span.offset word n, IsName new := by
    intro n new hnew
    obtain ⟨-, hnew⟩ := Option.ite_none_right_eq_some.1 hnew
    exact Option.some.inj hnew ▸ hword
  have htokens : tokensOf (t.relabelled (renamingAt leaf.lexeme.span.offset word)).lexemes =
      t.lexemes.map (Lexeme.respelled (renamingAt leaf.lexeme.span.offset word)) := by
    rw [t.tokens_relabelled, respelledMarks_at hnodup hleaf]
  have htok := Scan.tokenize_ok_iff.2 ⟨xs, hcut, htext, hplaced⟩
  obtain ⟨fixed, u, happly, -, -, -, hparse, hbare⟩ :=
    parse_edited hcut htext htok hnames (editsOf_at hnodup hleaf hcut hplaced word) htokens
  exact ⟨fixed, u, happly, hparse, hbare⟩

end Single

/-! ## Following the advice -/

/-- What a naming warning is about is declared, and is one token. -/
theorem SchemaTree.exists_misspelled {t : SchemaTree} {tx : Transaction} {what : Named} {name : String} {span : Span}
    (htx : tx ∈ t.schema.transactions) (hissue : ⟨.misspelled what name, span⟩ ∈ tx.styleIssues) :
    what.casing.accepts name = false ∧ ∃ leaf, (what, leaf) ∈ t.declares ∧ leaf.value = name ∧ leaf.lexeme.span = span := by
  rcases List.mem_append.1 hissue with hissue | hissue
  · obtain ⟨x, hx, hbad, heq⟩ := Transaction.mem_namingIssues_iff.1 hissue
    cases heq
    refine ⟨hbad, ?_⟩
    obtain ⟨u, hu, rfl⟩ := List.mem_map.1 htx
    obtain ⟨⟨what', leaf⟩, hleaf, rfl⟩ := List.mem_map.1 (u.declaredNames_perm.subset hx)
    exact ⟨leaf, List.mem_flatMap.2 ⟨u, hu, hleaf⟩, rfl, rfl⟩
  · obtain ⟨decl, -, -, heq⟩ := Transaction.mem_unusedIssues_iff.1 hissue
    cases heq

theorem isName_of_declares {t : SchemaTree} {xs : List Scan.Stretch} {what : Named} {leaf : NameLeaf} (hcut : Scan.Cut xs [])
    (hplaced : Scan.placed .first xs = t.lexemes) (hleaf : (what, leaf) ∈ t.declares) : IsName leaf.value := by
  have htoken : leaf.lexeme.token ∈ xs.filterMap (·.token) := by
    rw [← Scan.tokens_placed .first, hplaced, ← t.map_fst_declaredMarked]
    exact List.mem_map_of_mem (List.mem_map_of_mem (marked_of_declares hleaf))
  have hspellable := Scan.spellable_of_cut hcut _ htoken
  rwa [leaf.holds] at hspellable

/-- A naming warning shows the name respelled in its convention. That is spelled as it should be just if
the name has a letter first, underscores aside, and is a name just if it is no reserved word either.
Then it can be put in: the text is parsed again, and its naming warnings are those it had but for this one. -/
theorem naming_advice_usable_iff {source : String} {s : Schema} {tx : Transaction} {what : Named} {name : String} {span : Span}
    (hparse : parse source = .ok s) (htx : tx ∈ s.transactions) (hissue : ⟨.misspelled what name, span⟩ ∈ tx.styleIssues) :
    let advice := what.casing.respell name
    (∃ d ∈ lint source, d.span = span ∧ d.hintedMessage =
      what.label ++ " `" ++ name ++ "` should be " ++ what.casing.label ++ " (`" ++ advice ++ "`)") ∧
    (what.casing.accepts advice = true ↔ Casing.LeadsWithLetter name.toList) ∧
    (IsName advice ↔ Casing.LeadsWithLetter name.toList ∧ (what.casing = .snake → ¬Casing.HidesKeyword name.toList)) ∧
    (IsName advice → ∃ fixed s', Edit.applyAll source [.replacing span advice] = .ok fixed ∧ parse fixed = .ok s' ∧
      (misspellings source).Perm ((what, name) :: misspellings fixed)) := by
  intro advice
  have hlint := lint_of_parse hparse
  obtain ⟨t, htok, rfl⟩ := parse_ok_iff_derivation.1 hparse
  obtain ⟨xs, hcut, htext, hplaced⟩ := Scan.tokenize_ok_iff.1 htok
  obtain ⟨hbad, leaf, hleaf, rfl, rfl⟩ := SchemaTree.exists_misspelled htx hissue
  have hname : ∀ c ∈ leaf.value.toList, CharClass.continuesName c = true :=
    List.all_eq_true.1 (isName_of_declares hcut hplaced hleaf).2.1
  have hwarning := Schema.exists_diagnostic.2 tx htx _ hissue
  refine ⟨⟨_, hlint ▸ hwarning, rfl, String.append_empty⟩, Casing.accepts_respell hname _, Casing.isName_respell hname _,
    fun hadvice => ?_⟩
  have hnodup := nodup_lexemes hcut hplaced
  have hgood := (Casing.accepts_respell hname what.casing).2 ((Casing.isName_respell hname _).1 hadvice).1
  obtain ⟨fixed, u, happly, hparse', hbare⟩ := parse_renamedAt hleaf hcut htext hplaced hadvice
  refine ⟨fixed, u.schema, happly, hparse', ?_⟩
  have hafter := (misspellings_of_parse hparse' hbare).symm
  exact (misspellings_of_parse hparse rfl).trans ((misspellings_at hnodup hleaf hbad hgood).trans (hafter.cons _))

/-- The derivation of `transaction T{actor buyer{}actor _{}function Block(){}}`. -/
def misspelledNames : SchemaTree where
  first :=
    { header := ⟨.placed () "transaction" ⟨0, 11, 1, 1⟩, .placed "T" "T" ⟨12, 1, 1, 13⟩, none, .placed () "\x7b" ⟨13, 1, 1, 14⟩⟩
      declarations := [
        .actor ⟨.placed () "actor" ⟨14, 5, 1, 15⟩, .placed "buyer" "buyer" ⟨20, 5, 1, 21⟩, .placed () "\x7b" ⟨25, 1, 1, 26⟩,
          none, .placed () "\x7d" ⟨26, 1, 1, 27⟩⟩,
        .actor ⟨.placed () "actor" ⟨27, 5, 1, 28⟩, .placed "_" "_" ⟨33, 1, 1, 34⟩, .placed () "\x7b" ⟨34, 1, 1, 35⟩,
          none, .placed () "\x7d" ⟨35, 1, 1, 36⟩⟩,
        .function ⟨.placed () "function" ⟨36, 8, 1, 37⟩, .placed "Block" "Block" ⟨45, 5, 1, 46⟩, .placed () "(" ⟨50, 1, 1, 51⟩,
          none, .placed () ")" ⟨51, 1, 1, 52⟩, none, .placed () "\x7b" ⟨52, 1, 1, 53⟩, none, .placed () "\x7d" ⟨53, 1, 1, 54⟩⟩]
      right := .placed () "\x7d" ⟨54, 1, 1, 55⟩ }
  more := []

theorem parse_misspelledNames :
    parse "transaction T\x7bactor buyer\x7b\x7dactor _\x7b\x7dfunction Block()\x7b\x7d\x7d" = .ok misspelledNames.schema :=
  parse_ok_iff_derivation.2 ⟨misspelledNames, by cbv, rfl⟩

/-- The advice for `buyer` can be followed. -/
theorem advice_of_lowercase_actor :
    let source := "transaction T\x7bactor buyer\x7b\x7dactor _\x7b\x7dfunction Block()\x7b\x7d\x7d"
    let fixed := "transaction T\x7bactor Buyer\x7b\x7dactor _\x7b\x7dfunction Block()\x7b\x7d\x7d"
    (∃ d ∈ lint source, d.span = ⟨20, 5, 1, 21⟩ ∧ d.hintedMessage = "actor `buyer` should be UpperCamelCase (`Buyer`)") ∧
      Casing.upperCamel.accepts "Buyer" = true ∧ IsName "Buyer" ∧ Edit.applyAll source [⟨20, 25, "Buyer"⟩] = .ok fixed ∧
      ∃ s, parse fixed = .ok s ∧ (misspellings source).Perm ((.actor, "buyer") :: misspellings fixed) := by
  intro source fixed
  have hissue : (⟨.misspelled .actor "buyer", ⟨20, 5, 1, 21⟩⟩ : StyleIssue) ∈ misspelledNames.first.transaction.styleIssues := by
    decide
  have hname : IsName (Casing.upperCamel.respell "buyer") := by decide
  obtain ⟨⟨d, hd, hspan, hmessage⟩, haccepts, hiff, hfollow⟩ :=
    naming_advice_usable_iff parse_misspelledNames List.mem_cons_self hissue
  obtain ⟨fixed', s, happly, hparse, hperm⟩ := hfollow hname
  have hfixed : Edit.applyAll source [⟨20, 25, "Buyer"⟩] = .ok fixed := by
    rw [Edit.applyAll_singleton (by decide)]
    exact congrArg Except.ok (by decide)
  obtain rfl : fixed = fixed' := Except.ok.inj (hfixed.symm.trans happly)
  exact ⟨⟨d, hd, hspan, hmessage.trans (by decide)⟩, haccepts.2 (hiff.1 hname).1, hname, hfixed, s, hparse, hperm⟩

theorem tokenize_reservedName :
    tokenize "transaction T\x7bactor buyer\x7b\x7dactor _\x7b\x7dfunction block()\x7b\x7d\x7d" =
      .ok (misspelledNames.lexemes.set 12 ⟨.keyword .block, "block", ⟨45, 5, 1, 46⟩⟩) := by
  cbv

/-- The actor is to have no name at all, and the function the name `block`, which no function can have. -/
theorem advice_of_underscore_and_reserved_word :
    let source := "transaction T\x7bactor buyer\x7b\x7dactor _\x7b\x7dfunction Block()\x7b\x7d\x7d"
    let fixed := "transaction T\x7bactor buyer\x7b\x7dactor _\x7b\x7dfunction block()\x7b\x7d\x7d"
    (∃ d ∈ lint source, d.span = ⟨33, 1, 1, 34⟩ ∧ d.hintedMessage = "actor `_` should be UpperCamelCase (``)") ∧
      Casing.upperCamel.accepts "" = false ∧ ¬IsName "" ∧
      (∃ d ∈ lint source, d.span = ⟨45, 5, 1, 46⟩ ∧ d.hintedMessage = "function `Block` should be snake_case (`block`)") ∧
      Keyword.ofSpelling? "block" = some .block ∧ ¬IsName "block" ∧
      Edit.applyAll source [⟨45, 50, "block"⟩] = .ok fixed ∧ ∃ e, parse fixed = .error e := by
  intro source fixed
  have hwarns : ∀ issue ∈ misspelledNames.first.transaction.styleIssues, Diagnostic.ofStyleIssue issue ∈ lint source := by
    rw [lint_of_parse parse_misspelledNames]
    exact Schema.exists_diagnostic.2 _ List.mem_cons_self
  refine ⟨?_, rfl, by decide, ?_, by decide, by decide, ?_, ?_⟩
  · exact ⟨_, hwarns ⟨.misspelled .actor "_", ⟨33, 1, 1, 34⟩⟩ (by decide), rfl, by decide⟩
  · exact ⟨_, hwarns ⟨.misspelled .function "Block", ⟨45, 5, 1, 46⟩⟩ (by decide), rfl, by decide⟩
  · rw [Edit.applyAll_singleton (by decide)]
    exact congrArg Except.ok (by decide)
  · cases hparse : parse fixed with
    | error e => exact ⟨e, rfl⟩
    | ok s =>
      obtain ⟨ls, htokens, hread⟩ := parse_ok_iff.1 hparse
      obtain rfl := Except.ok.inj (tokenize_reservedName.symm.trans htokens)
      refine absurd ?_ ((Parser.readAll_ok_iff _).1 ⟨s, hread⟩)
      cbv

end Parley
