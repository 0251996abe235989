/-
Diagnostics on one line. A message is put together from fixed texts, numbers, names and tokens. Names of a
schema that was read can be ones, and a token or character found in the text is shown with escapes, so
no message breaks the line that it is reported on, whatever the text holds.
-/
import Parley.Proofs.Grammar.Continuation
import Parley.Proofs.Lint.Places
import Parley.Proofs.Schema.Reprint
import Parley.Proofs.Text.Casing
import Parley.Proofs.Text.OneLine
import Parley.Report.Plain

namespace Parley

/-! ## Names -/

mutual

theorem TypeExpr.WellFormed.nodes : ∀ {type : TypeExpr}, type.WellFormed → ∀ node ∈ type.nodes, IsName node.name
  | ⟨name, args, span⟩, ⟨hname, hargs⟩, node, hnode => by
    rcases List.mem_cons.1 hnode with rfl | hnode
    · exact hname
    · exact TypeExpr.AllWellFormed.nodes hargs node hnode

theorem TypeExpr.AllWellFormed.nodes : ∀ {types : List TypeExpr}, TypeExpr.AllWellFormed types →
    ∀ node ∈ TypeExpr.allNodes types, IsName node.name
  | [], _, node, hnode => absurd hnode List.not_mem_nil
  | type :: types, ⟨htype, htypes⟩, node, hnode => by
    rcases List.mem_append.1 hnode with hnode | hnode
    · exact TypeExpr.WellFormed.nodes htype node hnode
    · exact TypeExpr.AllWellFormed.nodes htypes node hnode

end

namespace Transaction

variable {tx : Transaction}

theorem WellFormed.typeNodes (h : tx.WellFormed) : ∀ type ∈ tx.typeNodes, IsName type.name := by
  obtain ⟨-, -, hmessages, hfunctions, -⟩ := h
  intro type htype
  rcases List.mem_append.1 htype with htype | htype
  · obtain ⟨m, hm, htype⟩ := List.mem_flatMap.1 htype
    obtain ⟨f, hf, htype⟩ := List.mem_flatMap.1 htype
    exact ((hmessages m hm).2.2.2 f hf).2.nodes type htype
  · obtain ⟨f, hf, htype⟩ := List.mem_flatMap.1 htype
    obtain ⟨-, hparams, hreturns⟩ := hfunctions f hf
    rcases List.mem_append.1 htype with htype | htype
    · obtain ⟨p, hp, htype⟩ := List.mem_flatMap.1 htype
      exact (hparams p hp).2.nodes type htype
    · exact hreturns.nodes type htype

theorem WellFormed.declaredNames (h : tx.WellFormed) : ∀ x ∈ tx.declaredNames, IsName x.2.1 := by
  obtain ⟨-, hactors, hmessages, hfunctions, hblocks⟩ := h
  simp only [Transaction.declaredNames, List.mem_append, List.mem_map, List.mem_flatMap, List.mem_cons]
  rintro _ (((⟨a, ha, rfl⟩ | ⟨m, hm, rfl | ⟨f, hf, rfl⟩⟩) | ⟨b, hb, rfl⟩) | ⟨f, hf, rfl | ⟨p, hp, rfl⟩⟩)
  · exact hactors a ha
  · exact (hmessages m hm).1
  · exact ((hmessages m hm).2.2.2 f hf).1
  · exact (hblocks b hb).1
  · exact (hfunctions f hf).1
  · exact ((hfunctions f hf).2.1 p hp).1

theorem WellFormed.references (h : tx.WellFormed) : ∀ x ∈ tx.references, IsName x.2.name := by
  obtain ⟨-, -, hmessages, -, hblocks⟩ := h
  intro x hx
  rcases List.mem_append.1 hx with hx | hx
  · obtain ⟨m, hm, hx⟩ := List.mem_flatMap.1 hx
    obtain ⟨-, hsender, hreceiver, -⟩ := hmessages m hm
    rcases List.mem_pair.1 hx with rfl | rfl
    · exact hsender
    · exact hreceiver
  · obtain ⟨s, hs, rfl⟩ := List.mem_map.1 hx
    obtain ⟨b, hb, hs⟩ := List.mem_flatMap.1 hs
    have haction := ((hblocks b hb).2 s hs).1
    rcases s with ⟨_ | ⟨_, _⟩ | _, _, _⟩
    · exact haction
    · exact haction.1
    · exact haction

theorem WellFormed.names (h : tx.WellFormed) : ∀ x ∈ tx.names, IsName x.1 := by
  intro x hx
  rcases List.mem_cons.1 hx with rfl | hx
  · exact h.1
  rcases List.mem_append.1 hx with hx | hx
  · obtain ⟨y, hy, rfl⟩ := List.mem_map.1 hx
    exact h.declaredNames y hy
  · obtain ⟨y, hy, rfl⟩ := List.mem_map.1 hx
    exact h.references y hy

end Transaction

/-! ## Issues -/

/-- The name that a violation shows. -/
def Violation.name : Violation → String
  | .duplicate _ name _ | .unresolved _ name | .missingActor name | .missingMessage name | .missingEntry name
  | .unreachable name | .arity name _ _ | .unknownType name => name

section Issues

variable {tx : Transaction} {issue : Issue}

theorem isName_of_flow (h : tx.WellFormed) {issues : List Issue} (hflow : tx.FlowFlaws issues) (hissue : issue ∈ issues) :
    IsName issue.violation.name := by
  cases hflow with
  | straight => exact absurd hissue List.not_mem_nil
  | noEntry =>
    obtain rfl := List.mem_singleton.1 hissue
    exact h.1
  | blocks _ _ hblocks =>
    obtain ⟨block, hblock, -, rfl⟩ := hblocks.exists_place hissue
    exact (h.2.2.2.2 block hblock).1

/-- An issue of a transaction shows a name that is one. -/
theorem isName_of_issue (h : tx.WellFormed) (hissue : issue ∈ tx.issues) : IsName issue.violation.name := by
  have hexact : tx.report.Exact tx := Report.exact_iff.2 rfl
  rw [← tx.issues_report] at hissue
  simp only [Report.issues, List.mem_append] at hissue
  rcases hissue with (((hissue | hissue | hissue) | (hissue | hissue) | hissue) | hissue) | hissue
  · obtain ⟨place, hplace, first, -, rfl⟩ := hexact.duplicates.exists_place hissue
    obtain ⟨category, -, hplace⟩ := List.mem_flatMap.1 hplace
    obtain ⟨as, bs, hdeclared, -⟩ := exists_split_of_withEarlier hplace
    exact h.declared category _ (hdeclared ▸ List.mem_append_right _ List.mem_cons_self)
  · obtain ⟨ref, href, -, rfl⟩ := hexact.ends.exists_place hissue
    obtain ⟨m, hm, href⟩ := List.mem_flatMap.1 href
    refine h.references (.actor, ref) (List.mem_append_left _ (List.mem_flatMap.2 ⟨m, hm, ?_⟩))
    simpa using href
  · obtain ⟨st, hst, -, rfl⟩ := hexact.targets.exists_place hissue
    have htarget := h.references _ (List.mem_append_right _ (List.mem_map_of_mem hst))
    exact htarget
  · obtain ⟨-, rfl⟩ := hexact.actor.eq_of_mem hissue
    exact h.1
  · obtain ⟨-, rfl⟩ := hexact.message.eq_of_mem hissue
    exact h.1
  · exact isName_of_flow h hexact.flow hissue
  · obtain ⟨st, hst, ref, args, f, haction, -, -, rfl⟩ := hexact.calls.exists_place hissue
    have htarget := h.references _ (List.mem_append_right _ (List.mem_map_of_mem hst))
    rwa [haction] at htarget
  · obtain ⟨type, htype, -, rfl⟩ := hexact.types.exists_place hissue
    exact h.typeNodes type htype

/-- So does the issue of a transaction that has the name of an earlier one. -/
theorem isName_of_diagnosed (h : tx.WellFormed) {earlier : List Transaction}
    (hissue : tx.redeclared? earlier = some issue ∨ issue ∈ tx.issues) : IsName issue.violation.name := by
  rcases hissue with hissue | hissue
  · obtain ⟨first, -, rfl⟩ := Option.map_eq_some_iff.1 hissue
    exact h.1
  · exact isName_of_issue h hissue

end Issues

namespace OneLine

theorem label_category (category : Category) : OneLine category.label := by
  cases category <;> decide

theorem violation {v : Violation} (h : OneLine v.name) : OneLine v.message := by
  cases v with
  | duplicate what name first =>
    have hwhat : OneLine what.label := by
      cases what with
      | transaction => decide
      | member category => exact label_category category
    refine append (append (append (append (append (append ?_ hwhat) ?_) h) ?_) (place first)) ?_ <;> decide
  | unresolved category name =>
    refine append (append (append (append ?_ (label_category category)) ?_) h) ?_ <;> decide
  | arity function expected actual =>
    refine append (append (append (append (append (append ?_ h) ?_) (nat expected)) ?_) (nat actual)) ?_ <;> decide
  | missingActor name | missingMessage name | missingEntry name | unreachable name | unknownType name =>
    refine append (append ?_ h) ?_ <;> decide

theorem respell {name : String} (h : IsName name) (casing : Casing) : OneLine (casing.respell name) := by
  have hcontinues : ∀ c ∈ name.toList, CharClass.continuesName c = true := List.all_eq_true.1 h.2.1
  exact of_continues (Casing.respell_chars hcontinues casing).2

end OneLine

/-! ## Flaws of style and suggestions -/

def StyleFlaw.name : StyleFlaw → String
  | .misspelled _ name | .unused _ name => name

theorem isName_of_style {tx : Transaction} (h : tx.WellFormed) {issue : StyleIssue} (hissue : issue ∈ tx.styleIssues) :
    IsName issue.flaw.name := by
  rcases List.mem_append.1 hissue with hissue | hissue
  · obtain ⟨x, hx, -, rfl⟩ := Transaction.mem_namingIssues_iff.1 hissue
    exact h.declaredNames x hx
  · obtain ⟨d, hd, -, rfl⟩ := Transaction.mem_unusedIssues_iff.1 hissue
    exact h.names _ (tx.declaration_mem_names (Transaction.expectedUses_subset hd))

theorem OneLine.styleFlaw {flaw : StyleFlaw} (h : IsName flaw.name) : OneLine flaw.message := by
  cases flaw with
  | misspelled what name =>
    have hlabel : OneLine what.label ∧ OneLine what.casing.label := by cases what <;> exact ⟨by decide, by decide⟩
    refine append (append (append (append (append (append (append hlabel.1 ?_) (of_isName h)) ?_) hlabel.2) ?_)
      (respell h what.casing)) ?_ <;> decide
  | unused category name =>
    have husage : OneLine category.usage := by cases category <;> decide
    refine append (append (append (append (label_category category) ?_) (of_isName h)) ?_) husage <;> decide

/-- What is suggested is a declared name. -/
theorem isName_of_suggestion {tx : Transaction} (h : tx.WellFormed) {issue : Issue} :
    ∀ name ∈ (Diagnostic.ofIssue tx.symbols issue).suggestion, IsName name := by
  intro name hname
  unfold Diagnostic.ofIssue at hname
  split at hname
  · split at hname
    · next s hs =>
      obtain rfl := Option.some.inj hname
      obtain ⟨d, hd, hname⟩ := tx.declares_of_mem_names (Suggestion.among_mem hs).1
      exact hname ▸ h.declared _ d hd
    · cases hname
  · cases hname

/-! ## Syntax errors -/

/-- The entries that stand for tokens, or for the end of the text, are fixed texts. -/
theorem OneLine.entries : ∀ next : Option Token, ∀ entry ∈ entriesFor next, OneLine entry
  | none => (by decide : ∀ entry ∈ ["end of input"], OneLine entry)
  | some (.keyword word) => by cases word <;> decide
  | some (.symbol mark) => by cases mark <;> decide
  | some (.integer _) => (by decide : ∀ entry ∈ ["expression", "condition"], OneLine entry)
  | some (.string _) => (by decide : ∀ entry ∈ ["string", "expression", "condition"], OneLine entry)
  | some (.name _) =>
    (by decide : ∀ entry ∈ ["identifier", "type", "field", "parameter", "expression", "condition"], OneLine entry)

/-- An error whose token can be held by a text, and whose expectations stand for something. -/
def ParseError.Legible (e : ParseError) : Prop :=
  (∀ t ∈ e.found, t.Spellable) ∧ ∀ x ∈ e.expected, ∃ next, x.Covers next

theorem OneLine.parseError {e : ParseError} (h : e.Legible) : OneLine e.summary := by
  have hfound : OneLine (e.found.elim "unexpected end of input" fun t => "unexpected `" ++ t.display ++ "`") := by
    cases hfound : e.found with
    | none => exact (by decide : OneLine "unexpected end of input")
    | some t => exact append (append (by decide) (display (h.1 t hfound))) (by decide)
  unfold ParseError.summary
  dsimp only
  split
  · exact hfound
  · refine append (append hfound (by decide)) (intercalate (by decide) (List.forall_mem_map.2 fun x hx => ?_))
    obtain ⟨next, hnext⟩ := h.2 x hx
    exact entries next _ hnext

section Syntax

open Parley.Parser Grammar

variable {source : String} {ls : List Lexeme}

theorem candid_standalone :
    Candid 0 (orElse ((fun _ => ()) <$> header) ((fun _ => ()) <$> declaration) <* many (symbol .closeBrace)) := by
  have hclose := (candid_symbol .closeBrace).many (reads_symbol .closeBrace)
    (Readings.ofTree_proper _ fun _ => List.cons_ne_nil _ _)
  have rclose := (reads_symbol .closeBrace).trees fun _ => List.cons_ne_nil _ _
  exact ((candid_header.map _).orElse (candid_declaration.map _)).before hclose rclose

/-- The error of reading lexemes of a text to the end is legible. -/
theorem Parser.Candid.legible {α : Type} {p : Parser α} {L : Readings α} (h : Candid 0 p) (rp : Reads p L)
    (htok : tokenize source = .ok ls) {ws : List Lexeme} (hws : ws ⊆ ls) {stop : Span} {e : ParseError}
    (he : (p <* atEnd).readAll ws stop = .error e) : e.Legible := by
  obtain ⟨us, vs, rfl, -, hfound, hcontinues⟩ := h.readAll_error rp he
  refine ⟨fun t ht => ?_, hcontinues.known⟩
  rw [hfound] at ht
  obtain ⟨l, hl, rfl⟩ := Option.map_eq_some_iff.1 ht
  exact spelled_of_tokenize htok l (hws (List.mem_append_right _ (List.mem_of_mem_head? hl)))

theorem legible_of_errorsAfter (htok : tokenize source = .ok ls) {strict e : ParseError}
    (hstrict : parseTokens source ls = .error strict) (he : e ∈ Recovery.errorsAfter source ls strict) : e.Legible := by
  have hextends := Recovery.extends_errorsAfter htok hstrict
  rw [hextends.kept, List.mem_cons, hextends.behind] at he
  rcases he with rfl | he
  · exact candid_schemas.legible reads_schemas htok (List.Subset.refl _) hstrict
  · obtain ⟨x, hx, he⟩ := List.mem_filterMap.1 he
    obtain ⟨hsubset, -⟩ := Recovery.partEnd_of_chunk (List.mem_of_mem_drop hx)
    exact candid_standalone.legible reads_standalone htok hsubset (Recovery.readAll_of_ownError? he)

end Syntax

/-! ## Diagnostics -/

/-- A diagnostic whose texts are one line each. -/
structure Diagnostic.Terse (d : Diagnostic) : Prop where
  message : OneLine d.finding.message
  suggestion : ∀ name ∈ d.suggestion, OneLine name

theorem Diagnostic.Terse.of_message {d : Diagnostic} (hnone : d.suggestion = none) (h : OneLine d.finding.message) : d.Terse where
  message := h
  suggestion := by simp [hnone]

theorem Diagnostic.terse_ofIssue {tx : Transaction} (h : tx.WellFormed) {issue : Issue} (hname : IsName issue.violation.name) :
    (Diagnostic.ofIssue tx.symbols issue).Terse := by
  constructor
  case message =>
    rw [finding_ofIssue]
    exact .violation (.of_isName hname)
  case suggestion => exact fun name hname => .of_isName (isName_of_suggestion h name hname)

theorem Schema.terse_of_mem {s : Schema} (h : s.WellFormed) : ∀ d ∈ s.diagnostics, d.Terse := by
  intro d hd
  obtain ⟨place, -, htx, ⟨issue, hissue, rfl⟩ | ⟨issue, hissue, rfl⟩⟩ := exists_place_of_mem hd
  · exact Diagnostic.terse_ofIssue (h.2 _ htx) (isName_of_diagnosed (h.2 _ htx) hissue)
  · exact .of_message rfl (.styleFlaw (isName_of_style (h.2 _ htx) hissue))

/-- Whatever is wrong with a source is said on one line. -/
theorem terse_of_mem_lint {source : String} : ∀ d ∈ lint source, d.Terse := by
  intro d hd
  cases htok : tokenize source with
  | error e =>
    rw [lint_of_lexError htok] at hd
    obtain rfl := List.mem_singleton.1 hd
    exact .of_message rfl (.append (by decide) (.escaped (by decide) _))
  | ok ls =>
    cases hparse : parseTokens source ls with
    | error strict =>
      rw [lint_of_parseError htok hparse] at hd
      obtain ⟨e, he, rfl⟩ := List.mem_map.1 hd
      exact .of_message rfl (.parseError (legible_of_errorsAfter htok hparse he))
    | ok s =>
      have hs : parse source = .ok s := parse_ok_iff.2 ⟨ls, htok, hparse⟩
      rw [lint_of_parse hs] at hd
      exact Schema.terse_of_mem (wellFormed_of_parse hs) d hd

theorem OneLine.code : ∀ f : Finding, OneLine f.code
  | .violation (.duplicate ..) => (by decide : OneLine "E001")
  | .violation (.unresolved ..) => (by decide : OneLine "E002")
  | .violation (.missingActor _) => (by decide : OneLine "E003")
  | .violation (.missingMessage _) => (by decide : OneLine "E004")
  | .violation (.missingEntry _) => (by decide : OneLine "E005")
  | .violation (.arity ..) => (by decide : OneLine "E006")
  | .violation (.unknownType _) => (by decide : OneLine "E007")
  | .lex _ => (by decide : OneLine "E010")
  | .parse _ => (by decide : OneLine "E011")
  | .unreadable _ | .unwritable _ => (by decide : OneLine "E012")
  | .violation (.unreachable _) => (by decide : OneLine "W001")
  | .style (.misspelled ..) => (by decide : OneLine "W010")
  | .style (.unused ..) => (by decide : OneLine "W011")

/-- A terse diagnostic is reported on one line for every path that is one. -/
theorem OneLine.plain {d : Diagnostic} (h : d.Terse) {path : String} (hpath : OneLine path) : OneLine (Report.plain path d) := by
  have hlocation : OneLine (Report.location path d.span) := by
    unfold Report.location
    split
    · exact hpath
    · exact append (append hpath (by decide)) (place d.span)
  have hseverity : OneLine d.finding.severity.label := by cases d.finding.severity <;> decide
  have hhint : OneLine d.hintedMessage := by
    refine append h.message ?_
    cases hname : d.suggestion with
    | none => exact (by decide : OneLine "")
    | some name => exact append (append (by decide) (h.suggestion name hname)) (by decide)
  have hfix : OneLine (if d.fix.isSome then " [fixable]" else "") := by split <;> decide
  refine append (append (append (append (append (append (append hlocation ?_) hseverity) ?_) (code d.finding)) ?_) hhint) hfix <;>
    decide

end Parley
