/-
Where diagnostics point. Each has the span of the text that it talks about, a fix replaces just that
text, diagnostics come in the order of the text, and nothing that is wrong goes without one. A syntax
error stands on a lexeme, or before nothing where the text or a chunk of it ends; an issue stands
where its place in the schema does.
-/
import Parley.Proofs.Lint.Account
import Parley.Proofs.Recovery.Extension
import Parley.Proofs.Schema.Spans

namespace Parley

open Scan

/-! ## What diagnostics talk about -/

/-- Where a syntax error may stand that has found a token, or nothing. -/
inductive SyntaxSpot (source : String) (ls : List Lexeme) (span : Span) (text : String) : Option Token → Prop
  /-- On a token that does not fit. -/
  | token (l : Lexeme) (mem : l ∈ ls) (stands : span = l.span) (reads : text = l.text) :
    SyntaxSpot source ls span text (some l.token)
  /-- At the end of the source. -/
  | atEnd (stands : span.offset = byteLength source.toList) (reads : text = "") : SyntaxSpot source ls span text none
  /-- Where the keyword of a later declaration starts. -/
  | before (us : List Lexeme) (l : Lexeme) (vs : List Lexeme) (cut : ls = us ++ l :: vs) (later : us ≠ [])
    (opens : l.token.opensDeclaration = true) (stands : span.offset = l.span.offset) (reads : text = "") :
    SyntaxSpot source ls span text none

/-- A violation talks about a text at a span. -/
def Violation.About (source : String) (s : Schema) (span : Span) (text : String) : Violation → Prop
  | .duplicate _ name first => text = name ∧ first.Denotes source name ∧ first.offset < span.offset
  | .unresolved _ name => text = name
  | .unreachable name => text = name
  | .missingActor name => text = name ∧ ∃ tx ∈ s.transactions, tx.name = name ∧ tx.span = span ∧ tx.actors = []
  | .missingMessage name => text = name ∧ ∃ tx ∈ s.transactions, tx.name = name ∧ tx.span = span ∧ tx.messages = []
  | .missingEntry name => text = name ∧ ∃ tx ∈ s.transactions, tx.name = name ∧ tx.span = span ∧ tx.UsesGoto ∧
      ∀ b ∈ tx.blocks, b.entry = false
  | .arity name _ _ => (∃ more, Tight text (.keyword .call :: .name name :: more)) ∧
      ∃ tx ∈ s.transactions, ∃ st ∈ tx.statements, st.span = span ∧ ∃ ref args, st.action = .call ref args ∧ ref.name = name
  | .unknownType name => name.toList <+: text.toList

/-- A finding talks about a text at a span. -/
def Finding.About (source : String) (span : Span) (text : String) : Finding → Prop
  | .lex e => tokenize source = .error e ∧ text = e.text
  | .parse e => ∃ ls, tokenize source = .ok ls ∧ SyntaxSpot source ls span text e.found
  | .unreadable _ | .unwritable _ => False
  | .violation v => ∃ s, Parley.parse source = .ok s ∧ v.About source s span text
  | .style (.misspelled _ name) => text = name
  | .style (.unused _ name) => text = name

/-- A diagnostic has the span of the text that it talks about, and its fix replaces this text. -/
structure Diagnostic.Points (source : String) (d : Diagnostic) : Prop where
  text : ∃ text, d.span.Denotes source text ∧ d.finding.About source d.span text
  fix : ∀ e ∈ d.fix, e.start = d.span.offset ∧ e.stop = d.span.stop

/-- What is wrong with a source, and where: its first error, or else an issue of its schema or a flaw of
style of one of its transactions. -/
inductive Flaw (source : String) : Finding → Span → Prop
  | lex {e : LexError} (h : tokenize source = .error e) : Flaw source (.lex e) e.span
  | unparsed {ls : List Lexeme} {e : ParseError} (htok : tokenize source = .ok ls) (h : parseTokens source ls = .error e) :
    Flaw source (.parse e) e.span
  | violation {s : Schema} {issue : Issue} (h : parse source = .ok s) (mem : issue ∈ s.issues) :
    Flaw source (.violation issue.violation) issue.span
  | style {s : Schema} {tx : Transaction} {issue : StyleIssue} (h : parse source = .ok s) (htx : tx ∈ s.transactions)
    (mem : issue ∈ tx.styleIssues) : Flaw source (.style issue.flaw) issue.span

/-! ## Syntax errors -/

theorem Span.Denotes.atStart {source text : String} {s : Span} (h : s.Denotes source text) : s.atStart.Denotes source "" := by
  constructor
  case inside => exact Nat.le_trans (Nat.le_add_right _ _) h.inside
  case starts => exact h.starts
  case stops => exact h.starts
  case slice =>
    show takeBytes 0 (dropBytes s.offset source.toList) = []
    exact takeBytes_prefix [] _
  case line => exact h.line
  case column => exact h.column

theorem denotes_atEnd (source : String) : (Span.atEnd source).Denotes source "" := by
  have hsource : source.toList = source.toList ++ ([] ++ []) := by simp
  have hend : (Span.startingAt (Position.first.after source.toList) 0).Denotes source "" := denotes_startingAt hsource
  have hoffset : (Position.first.after source.toList).offset = byteLength source.toList := by
    rw [Position.after_first]
  have hsame : Span.startingAt (Position.first.after source.toList) 0 = Span.atEnd source := by
    rw [hend.eq_ofRange]
    show Span.ofRange source (Position.first.after source.toList).offset ((Position.first.after source.toList).offset + 0) = _
    rw [hoffset]
    rfl
  rwa [hsame] at hend

/-- Where a part of the lexemes ends: at the end of the source, or where a later declaration starts. -/
def PartEnd (source : String) (ls : List Lexeme) (stop : Span) : Prop :=
  stop = Span.atEnd source ∨ ∃ us l vs, ls = us ++ l :: vs ∧ us ≠ [] ∧ l.token.opensDeclaration = true ∧ stop = l.span.atStart

section Syntax

variable {source : String} {ls : List Lexeme} (htok : tokenize source = .ok ls)

include htok

/-- Reading a part of the lexemes fails on one of them, or where the part ends. -/
theorem spot_of_readAll {α : Type} {p : Parser α} {ws : List Lexeme} {stop : Span} {e : ParseError} (hws : ws ⊆ ls)
    (hstop : PartEnd source ls stop) (he : p.readAll ws stop = .error e) :
    ∃ text, e.span.Denotes source text ∧ SyntaxSpot source ls e.span text e.found := by
  rcases Parser.place_of_error he with ⟨l, hl, hspan, hfound⟩ | ⟨hspan, hfound⟩
  · rw [hspan, hfound]
    exact ⟨l.text, denotes_lexeme htok (hws hl), .token l (hws hl) rfl rfl⟩
  · rw [hspan, hfound]
    rcases hstop with rfl | ⟨us, l, vs, hcut, hus, hopens, rfl⟩
    · exact ⟨"", denotes_atEnd source, .atEnd (Span.offset_atEnd source) rfl⟩
    · have hl : l ∈ ls := hcut ▸ List.mem_append_right _ List.mem_cons_self
      exact ⟨"", (denotes_lexeme htok hl).atStart, .before us l vs hcut hus hopens rfl rfl⟩

omit htok in
theorem Recovery.partEnd_of_chunk {x : List Lexeme × Span} (h : x ∈ withEnds (Span.atEnd source) (chunks ls)) :
    x.1 ⊆ ls ∧ PartEnd source ls x.2 := by
  obtain ⟨as, ds, hws, hend⟩ := split_of_mem_withEnds h
  have hls : ls = as.flatten ++ x.1 ++ ds.flatten := by
    rw [← flatten_chunks ls, hws]
    simp
  refine ⟨fun l hl => ?_, ?_⟩
  · rw [hls]
    exact List.mem_append_left _ (List.mem_append_right _ hl)
  rcases ds with _ | ⟨d, ds⟩
  · exact .inl hend
  · rw [List.append_cons] at hws
    obtain ⟨l, ms, rfl, hopens⟩ := opens_of_chunks hws (by simp)
    have hx : x.1 ∈ chunks ls := by
      rw [hws]
      simp
    have hne : x.1 ≠ [] := ne_nil_of_mem_chunks hx
    refine .inr ⟨as.flatten ++ x.1, l, ms ++ ds.flatten, ?_, List.append_ne_nil_of_right_ne_nil _ hne, hopens, hend⟩
    rw [hls, List.flatten_cons, List.cons_append]

/-- Every error of reading with recovery stands where a syntax error may stand. -/
theorem spot_of_errorsAfter {strict e : ParseError} (hstrict : parseTokens source ls = .error strict)
    (he : e ∈ Recovery.errorsAfter source ls strict) :
    ∃ text, e.span.Denotes source text ∧ SyntaxSpot source ls e.span text e.found := by
  have hextends := Recovery.extends_errorsAfter htok hstrict
  rw [hextends.kept, List.mem_cons, hextends.behind] at he
  rcases he with rfl | he
  · exact spot_of_readAll htok (List.Subset.refl _) (.inl rfl) hstrict
  · obtain ⟨x, hx, he⟩ := List.mem_filterMap.1 he
    obtain ⟨hsubset, hend⟩ := Recovery.partEnd_of_chunk (List.mem_of_mem_drop hx)
    exact spot_of_readAll htok hsubset hend (Recovery.readAll_of_ownError? he)

end Syntax

/-! ## Names -/

namespace Transaction

variable {tx : Transaction}

theorem name_mem_names : (tx.name, tx.span) ∈ tx.names := List.mem_cons_self

theorem declared_mem_names {what : Named} {name : String} {span : Span} (h : (what, name, span) ∈ tx.declaredNames) :
    (name, span) ∈ tx.names :=
  List.mem_cons_of_mem _ (List.mem_append_left _ (List.mem_map.2 ⟨_, h, rfl⟩))

theorem reference_mem_names {category : Category} {ref : Reference} (h : (category, ref) ∈ tx.references) :
    (ref.name, ref.span) ∈ tx.names :=
  List.mem_cons_of_mem _ (List.mem_append_right _ (List.mem_map.2 ⟨_, h, rfl⟩))

theorem declaration_mem_names {d : Declaration} (h : d ∈ tx.declarations) : (d.name, d.span) ∈ tx.names := by
  have hnamed : ∃ what, (what, d.name, d.span) ∈ tx.declaredNames := by
    simp only [declarations, List.mem_append, List.mem_map] at h
    simp only [declaredNames, List.mem_append, List.mem_map, List.mem_flatMap, List.mem_cons]
    rcases h with ((⟨a, ha, rfl⟩ | ⟨m, hm, rfl⟩) | ⟨b, hb, rfl⟩) | ⟨f, hf, rfl⟩
    · exact ⟨.actor, .inl (.inl (.inl ⟨a, ha, rfl⟩))⟩
    · exact ⟨.message, .inl (.inl (.inr ⟨m, hm, .inl rfl⟩))⟩
    · exact ⟨.block, .inl (.inr ⟨b, hb, rfl⟩)⟩
    · exact ⟨.function, .inr ⟨f, hf, .inl rfl⟩⟩
  obtain ⟨what, hwhat⟩ := hnamed
  exact declared_mem_names hwhat

end Transaction

/-! ## Issues -/

/-- An issue of a pass comes from a place that breaks the rule of the pass. -/
theorem OnePer.exists_place {σ : Type} {rule : σ → Issue → Prop} {places : List σ} {issues : List Issue}
    (h : OnePer rule places issues) {issue : Issue} (hissue : issue ∈ issues) : ∃ place ∈ places, rule place issue := by
  induction h with
  | done => exact absurd hissue List.not_mem_nil
  | @broken place places _ issues hrule _ ih =>
    rcases List.mem_cons.1 hissue with rfl | hissue
    · exact ⟨place, List.mem_cons_self, hrule⟩
    · obtain ⟨place', hplace', hrule'⟩ := ih hissue
      exact ⟨place', List.mem_cons_of_mem _ hplace', hrule'⟩
  | kept _ _ ih =>
    obtain ⟨place', hplace', hrule'⟩ := ih hissue
    exact ⟨place', List.mem_cons_of_mem _ hplace', hrule'⟩

theorem IssueIf.eq_of_mem {condition : Prop} {issue issue' : Issue} {issues : List Issue} (h : IssueIf condition issue issues)
    (hissue : issue' ∈ issues) : condition ∧ issue' = issue := by
  rcases h with ⟨hcondition, rfl⟩ | ⟨-, rfl⟩
  · exact ⟨hcondition, List.mem_singleton.1 hissue⟩
  · exact absurd hissue List.not_mem_nil

section Issues

variable {source : String} {ls : List Lexeme} {s : Schema} (hplaced : s.Placed source ls) {tx : Transaction}
  (htx : tx ∈ s.transactions)

include hplaced htx

theorem denotes_of_mem_names {x : String × Span} (h : x ∈ tx.names) : x.2.Denotes source x.1 :=
  hplaced.names x (List.mem_flatMap.2 ⟨tx, htx, h⟩)

theorem about_redeclared {category : Category} {place : List Declaration × Declaration} {issue : Issue}
    (hplace : place ∈ withEarlier [] (tx.declared category)) (h : Transaction.Redeclared place issue) :
    ∃ text, issue.span.Denotes source text ∧ issue.violation.About source s issue.span text := by
  obtain ⟨first, ⟨before, after, hearlier, hname, -⟩, rfl⟩ := h
  obtain ⟨as, bs, hdeclared, has⟩ := exists_split_of_withEarlier hplace
  rw [List.nil_append, hearlier] at has
  have hfirst : first ∈ as := by
    rw [← has]
    exact List.mem_append_right _ List.mem_cons_self
  have hnamed : ∀ d ∈ tx.declared category, d.span.Denotes source d.name := fun d hd =>
    denotes_of_mem_names hplaced htx (tx.declaration_mem_names (List.mem_filter.1 hd).1)
  rw [hdeclared] at hnamed
  refine ⟨place.2.name, hnamed _ (List.mem_append_right _ List.mem_cons_self), rfl, ?_, ?_⟩
  · rw [← hname]
    exact hnamed first (List.mem_append_left _ hfirst)
  · have horder := hplaced.inOrder tx htx category
    rw [hdeclared, List.pairwise_map] at horder
    exact (List.pairwise_append.1 horder).2.2 first hfirst place.2 List.mem_cons_self

theorem about_dangling {category : Category} {ref : Reference} {issue : Issue} (href : (category, ref) ∈ tx.references)
    (h : tx.Dangling category ref issue) :
    ∃ text, issue.span.Denotes source text ∧ issue.violation.About source s issue.span text := by
  obtain ⟨-, rfl⟩ := h
  exact ⟨ref.name, denotes_of_mem_names hplaced htx (tx.reference_mem_names href), rfl⟩

theorem about_flow {issues : List Issue} {issue : Issue} (h : tx.FlowFlaws issues) (hissue : issue ∈ issues) :
    ∃ text, issue.span.Denotes source text ∧ issue.violation.About source s issue.span text := by
  cases h with
  | straight => exact absurd hissue List.not_mem_nil
  | noEntry hgoto hnone =>
    obtain rfl := List.mem_singleton.1 hissue
    exact ⟨tx.name, denotes_of_mem_names hplaced htx tx.name_mem_names, rfl, tx, htx, rfl, rfl, hgoto, hnone⟩
  | blocks _ _ hblocks =>
    obtain ⟨block, hblock, -, rfl⟩ := hblocks.exists_place hissue
    have hname : (block.name, block.span) ∈ tx.names :=
      tx.declaration_mem_names (d := .block block) (List.mem_append_left _ (List.mem_append_right _ (List.mem_map_of_mem hblock)))
    exact ⟨block.name, denotes_of_mem_names hplaced htx hname, rfl⟩

omit hplaced htx in
theorem StatementTree.tokens_of_call {t : StatementTree} {ref : Reference} {args : List Expr}
    (h : t.statement.action = .call ref args) : ∃ more, tokensOf t.lexemes = .keyword .call :: .name ref.name :: more := by
  rcases t with ⟨word | ⟨word, target, left, args', right⟩ | word, guard⟩
  · cases h
  · obtain ⟨rfl, -⟩ := Action.call.inj h
    exact ⟨_, congrArg₂ (fun t u => t :: u :: _) word.holds target.holds⟩
  · cases h

theorem about_misfit {st : Statement} {issue : Issue} (hst : st ∈ tx.statements) (h : tx.Misfits st issue) :
    ∃ text, issue.span.Denotes source text ∧ issue.violation.About source s issue.span text := by
  obtain ⟨ref, args, f, haction, -, -, rfl⟩ := h
  obtain ⟨text, hdenotes, ⟨t, rfl, htight, -⟩, -⟩ := hplaced.statements tx htx st hst
  refine ⟨text, hdenotes, ?_, tx, htx, t.statement, hst, rfl, ref, args, haction, rfl⟩
  obtain ⟨more, hmore⟩ := t.tokens_of_call haction
  exact ⟨more, hmore ▸ htight⟩

theorem placed_of_typeNodes {type : TypeExpr} (htype : type ∈ tx.typeNodes) (hunknown : type.name ∉ knownTypes) :
    ∃ text, type.span.Denotes source text ∧ Tight text type.tokens := by
  rcases List.mem_append.1 htype with htype | htype
  · obtain ⟨m, hm, htype⟩ := List.mem_flatMap.1 htype
    obtain ⟨f, hf, htype⟩ := List.mem_flatMap.1 htype
    exact hplaced.fields tx htx m hm f hf type htype
  · obtain ⟨f, hf, htype⟩ := List.mem_flatMap.1 htype
    rcases List.mem_append.1 htype with htype | htype
    · obtain ⟨p, hp, htype⟩ := List.mem_flatMap.1 htype
      exact hplaced.params tx htx f hf p hp type htype
    · rcases hplaced.returns tx htx f hf with ⟨-, hreturns⟩ | ⟨-, hreturns⟩
      · exact hreturns type htype
      · -- a type that is not written is `unit`, which is known
        rw [hreturns] at htype
        obtain rfl := List.mem_singleton.1 htype
        have hknown : "unit" ∈ knownTypes := by decide
        exact absurd hknown hunknown

omit hplaced htx in
theorem isPrefix_of_tight {text name : String} {more : List Token} (h : Tight text (.name name :: more)) :
    name.toList <+: text.toList := by
  obtain ⟨ms, htok, htokens, hfirst, -⟩ := h
  obtain ⟨l, ms, rfl, hl, -⟩ := List.map_eq_cons_iff.1 htokens
  have hdenotes := denotes_name htok List.mem_cons_self hl
  have hoffset : l.span.offset = 0 := Option.some.inj hfirst
  rw [← hdenotes.slice, hoffset]
  have hall : dropBytes 0 text.toList = text.toList := dropBytes_prefix [] _
  rw [hall]
  exact takeBytes_isPrefix _ _

theorem about_unknownType {type : TypeExpr} {issue : Issue} (htype : type ∈ tx.typeNodes) (h : Transaction.UnknownType type issue) :
    ∃ text, issue.span.Denotes source text ∧ issue.violation.About source s issue.span text := by
  obtain ⟨hunknown, rfl⟩ := h
  obtain ⟨text, hdenotes, htight⟩ := placed_of_typeNodes hplaced htx htype hunknown
  refine ⟨text, hdenotes, ?_⟩
  obtain ⟨more, hmore⟩ : ∃ more, type.tokens = .name type.name :: more := by
    rcases type with ⟨name, _ | ⟨arg, args⟩, span⟩
    · exact ⟨[], rfl⟩
    · exact ⟨_, rfl⟩
  rw [hmore] at htight
  exact isPrefix_of_tight htight

/-- Every issue of a transaction has the span of the text that it talks about. -/
theorem about_issue {issue : Issue} (h : issue ∈ tx.issues) :
    ∃ text, issue.span.Denotes source text ∧ issue.violation.About source s issue.span text := by
  have hexact : tx.report.Exact tx := Report.exact_iff.2 rfl
  rw [← tx.issues_report] at h
  simp only [Report.issues, List.mem_append] at h
  rcases h with (((h | h | h) | (h | h) | h) | h) | h
  · obtain ⟨place, hplace, hrule⟩ := hexact.duplicates.exists_place h
    obtain ⟨category, -, hplace⟩ := List.mem_flatMap.1 hplace
    exact about_redeclared hplaced htx hplace hrule
  · obtain ⟨ref, href, hrule⟩ := hexact.ends.exists_place h
    refine about_dangling hplaced htx (List.mem_append_left _ ?_) hrule
    obtain ⟨m, hm, href⟩ := List.mem_flatMap.1 href
    refine List.mem_flatMap.2 ⟨m, hm, ?_⟩
    simpa using href
  · obtain ⟨st, hst, hrule⟩ := hexact.targets.exists_place h
    exact about_dangling hplaced htx (List.mem_append_right _ (List.mem_map_of_mem hst)) hrule
  · obtain ⟨hactors, rfl⟩ := hexact.actor.eq_of_mem h
    exact ⟨tx.name, denotes_of_mem_names hplaced htx tx.name_mem_names, rfl, tx, htx, rfl, rfl, hactors⟩
  · obtain ⟨hmessages, rfl⟩ := hexact.message.eq_of_mem h
    exact ⟨tx.name, denotes_of_mem_names hplaced htx tx.name_mem_names, rfl, tx, htx, rfl, rfl, hmessages⟩
  · exact about_flow hplaced htx hexact.flow h
  · obtain ⟨st, hst, hrule⟩ := hexact.calls.exists_place h
    exact about_misfit hplaced htx hst hrule
  · obtain ⟨type, htype, hrule⟩ := hexact.types.exists_place h
    exact about_unknownType hplaced htx htype hrule

/-- So has every flaw of style. -/
theorem about_style {issue : StyleIssue} (h : issue ∈ tx.styleIssues) :
    ∃ text, issue.span.Denotes source text ∧ (Finding.style issue.flaw).About source issue.span text := by
  rcases List.mem_append.1 h with h | h
  · obtain ⟨⟨what, name, span⟩, hname, -, rfl⟩ := Transaction.mem_namingIssues_iff.1 h
    exact ⟨name, denotes_of_mem_names hplaced htx (tx.declared_mem_names hname), rfl⟩
  · obtain ⟨d, hd, -, rfl⟩ := Transaction.mem_unusedIssues_iff.1 h
    exact ⟨d.name, denotes_of_mem_names hplaced htx (tx.declaration_mem_names (Transaction.expectedUses_subset hd)), rfl⟩

end Issues

/-- So has the issue of a transaction whose name an earlier one has. -/
theorem about_redeclaredTransaction {source : String} {ls : List Lexeme} {s : Schema} {place : List Transaction × Transaction}
    {issue : Issue} (hplaced : s.Placed source ls) (hplace : place ∈ withEarlier [] s.transactions)
    (h : place.2.redeclared? place.1 = some issue) :
    ∃ text, issue.span.Denotes source text ∧ issue.violation.About source s issue.span text := by
  obtain ⟨first, hfind, rfl⟩ := Option.map_eq_some_iff.1 h
  obtain ⟨as, bs, htxs, has⟩ := exists_split_of_withEarlier hplace
  rw [List.nil_append] at has
  rw [has] at hfind
  have hfirst : first ∈ as := List.mem_of_find?_eq_some hfind
  have hname : first.name = place.2.name := by simpa using List.find?_some hfind
  have hnamed : ∀ tx ∈ s.transactions, tx.span.Denotes source tx.name := fun tx htx =>
    denotes_of_mem_names hplaced htx tx.name_mem_names
  rw [htxs] at hnamed
  refine ⟨place.2.name, hnamed _ (List.mem_append_right _ List.mem_cons_self), rfl, ?_, ?_⟩
  · rw [← hname]
    exact hnamed first (List.mem_append_left _ hfirst)
  · have horder := hplaced.transactions
    rw [htxs, List.pairwise_map] at horder
    exact (List.pairwise_append.1 horder).2.2 first hfirst place.2 List.mem_cons_self

/-! ## Diagnostics -/

theorem Diagnostic.span_ofIssue (symbols : Symbols) (issue : Issue) : (Diagnostic.ofIssue symbols issue).span = issue.span := by
  unfold ofIssue
  split
  · split <;> rfl
  · rfl

/-- The fix of an issue replaces what its span denotes. -/
theorem Diagnostic.fix_ofIssue {symbols : Symbols} {issue : Issue} {e : Edit}
    (h : (Diagnostic.ofIssue symbols issue).fix = some e) : ∃ name, e = .replacing issue.span name := by
  unfold ofIssue at h
  split at h
  · split at h
    · rename_i s _
      dsimp only at h
      split at h
      · exact ⟨s.name, (Option.some.inj h).symm⟩
      · cases h
    · cases h
  · cases h

/-- A diagnostic of a schema is that of an issue or of a flaw of style of one of its transactions. -/
theorem Schema.exists_place_of_mem {s : Schema} {d : Diagnostic} (hd : d ∈ s.diagnostics) :
    ∃ place ∈ withEarlier [] s.transactions, place.2 ∈ s.transactions ∧
      ((∃ issue, (place.2.redeclared? place.1 = some issue ∨ issue ∈ place.2.issues) ∧ d = .ofIssue place.2.symbols issue) ∨
        ∃ issue ∈ place.2.styleIssues, d = .ofStyleIssue issue) := by
  have hknows : Namespace.empty.Knows Transaction.name Transaction.span [] := fun _ => rfl
  have hd := s.diagnostics_perm.subset hd
  rw [findings, issuesByTransaction, issuesAfter_eq hknows, List.flatMap_map] at hd
  obtain ⟨place, hplace, hd⟩ := List.mem_flatMap.1 hd
  have htx : place.2 ∈ s.transactions := by
    obtain ⟨as, bs, htxs, -⟩ := exists_split_of_withEarlier hplace
    rw [htxs]
    exact List.mem_append_right _ List.mem_cons_self
  refine ⟨place, hplace, htx, ?_⟩
  rcases List.mem_append.1 hd with hd | hd
  · obtain ⟨issue, hissue, rfl⟩ := List.mem_map.1 hd
    exact .inl ⟨issue, (List.mem_append.1 hissue).imp_left Option.mem_toList.1, rfl⟩
  · obtain ⟨issue, hissue, rfl⟩ := List.mem_map.1 hd
    exact .inr ⟨issue, hissue, rfl⟩

section Schemas

variable {source : String} {ls : List Lexeme} {s : Schema} (hparse : parse source = .ok s) (hplaced : s.Placed source ls)

include hparse

theorem Diagnostic.points_ofIssue {symbols : Symbols} {issue : Issue}
    (h : ∃ text, issue.span.Denotes source text ∧ issue.violation.About source s issue.span text) :
    (Diagnostic.ofIssue symbols issue).Points source := by
  constructor
  case text =>
    obtain ⟨text, hdenotes, habout⟩ := h
    rw [span_ofIssue, finding_ofIssue]
    exact ⟨text, hdenotes, s, hparse, habout⟩
  case fix =>
    intro e he
    obtain ⟨name, rfl⟩ := fix_ofIssue he
    rw [span_ofIssue]
    exact ⟨rfl, rfl⟩

include hplaced

theorem Schema.points_of_mem {d : Diagnostic} (hd : d ∈ s.diagnostics) : d.Points source := by
  obtain ⟨place, hplace, htx, ⟨issue, hissue, rfl⟩ | ⟨issue, hissue, rfl⟩⟩ := Schema.exists_place_of_mem hd
  · apply Diagnostic.points_ofIssue hparse
    rcases hissue with hissue | hissue
    · exact about_redeclaredTransaction hplaced hplace hissue
    · exact about_issue hplaced htx hissue
  · exact ⟨about_style hplaced htx hissue, fun e he => by cases he⟩

end Schemas

theorem Schema.pairwise_diagnostics (s : Schema) : s.diagnostics.Pairwise fun d e => d.span.offset ≤ e.span.offset := by
  let le (d e : Diagnostic) : Bool := decide (d.span.offset ≤ e.span.offset)
  have htrans : ∀ c d e : Diagnostic, le c d = true → le d e = true → le c e = true := by
    intro c d e hcd hde
    exact decide_eq_true (Nat.le_trans (of_decide_eq_true hcd) (of_decide_eq_true hde))
  have htotal : ∀ d e : Diagnostic, (le d e || le e d) = true := by
    intro d e
    simpa [le] using Nat.le_total d.span.offset e.span.offset
  exact (List.pairwise_mergeSort htrans htotal _).imp of_decide_eq_true

/-- The diagnostics of a schema leave out no issue and no flaw of style. -/
theorem Schema.exists_diagnostic {s : Schema} :
    (∀ issue ∈ s.issues, ∃ d ∈ s.diagnostics, d.finding = .violation issue.violation ∧ d.span = issue.span) ∧
    ∀ tx ∈ s.transactions, ∀ issue ∈ tx.styleIssues, Diagnostic.ofStyleIssue issue ∈ s.diagnostics := by
  have hmem : ∀ {d x}, x ∈ s.issuesByTransaction → d ∈ x.1.diagnostics x.2 → d ∈ s.diagnostics := fun hx hd =>
    s.diagnostics_perm.symm.subset (List.mem_flatMap.2 ⟨_, hx, hd⟩)
  constructor
  · intro issue hissue
    obtain ⟨x, hx, hissue⟩ := List.mem_flatMap.1 hissue
    refine ⟨_, hmem hx (List.mem_append_left _ (List.mem_map_of_mem hissue)), ?_, ?_⟩
    · exact Diagnostic.finding_ofIssue _ issue
    · exact Diagnostic.span_ofIssue _ issue
  · intro tx htx issue hissue
    have hknows : Namespace.empty.Knows Transaction.name Transaction.span [] := fun _ => rfl
    rw [← map_snd_withEarlier [] s.transactions] at htx
    obtain ⟨place, hplace, rfl⟩ := List.mem_map.1 htx
    have hx : (place.2, (place.2.redeclared? place.1).toList ++ place.2.issues) ∈ s.issuesByTransaction := by
      rw [issuesByTransaction, issuesAfter_eq hknows]
      exact List.mem_map_of_mem hplace
    exact hmem hx (List.mem_append_right _ (List.mem_map_of_mem hissue))

/-! ## Sources -/

section Sources

variable {source : String} {ls : List Lexeme}

theorem lint_of_lexError {e : LexError} (h : tokenize source = .error e) : lint source = [.plain (.lex e) e.span] := by
  unfold lint recover
  rw [h]
  rfl

theorem lint_of_parseError {strict : ParseError} (htok : tokenize source = .ok ls) (h : parseTokens source ls = .error strict) :
    lint source = (Recovery.errorsAfter source ls strict).map fun e => .plain (.parse e) e.span := by
  unfold lint recover
  rw [htok]
  simp only [h, List.map_map]
  rfl

theorem points_of_mem_lint {d : Diagnostic} (hd : d ∈ lint source) : d.Points source := by
  cases htok : tokenize source with
  | error e =>
    rw [lint_of_lexError htok] at hd
    obtain rfl := List.mem_singleton.1 hd
    exact ⟨⟨e.text, denotes_lexError htok, htok, rfl⟩, nofun⟩
  | ok ls =>
    cases hparse : parseTokens source ls with
    | error strict =>
      rw [lint_of_parseError htok hparse] at hd
      obtain ⟨e, he, rfl⟩ := List.mem_map.1 hd
      obtain ⟨text, hdenotes, hspot⟩ := spot_of_errorsAfter htok hparse he
      exact ⟨⟨text, hdenotes, ls, htok, hspot⟩, nofun⟩
    | ok s =>
      have hs : parse source = .ok s := parse_ok_iff.2 ⟨ls, htok, hparse⟩
      obtain ⟨t, rfl, rfl⟩ := parseTokens_ok_iff.1 hparse
      rw [lint_of_parse hs] at hd
      exact Schema.points_of_mem hs (SchemaTree.placed htok) hd

theorem pairwise_lint (source : String) : (lint source).Pairwise fun d e => d.span.offset ≤ e.span.offset := by
  cases htok : tokenize source with
  | error e =>
    rw [lint_of_lexError htok]
    exact List.pairwise_singleton _ _
  | ok ls =>
    cases hparse : parseTokens source ls with
    | error strict =>
      rw [lint_of_parseError htok hparse, List.pairwise_map]
      exact (Recovery.extends_errorsAfter htok hparse).increasing.imp Nat.le_of_lt
    | ok s =>
      rw [lint_of_parse (parse_ok_iff.2 ⟨ls, htok, hparse⟩)]
      exact s.pairwise_diagnostics

theorem exists_diagnostic_of_flaw {finding : Finding} {span : Span} (h : Flaw source finding span) :
    ∃ d ∈ lint source, d.finding = finding ∧ d.span = span := by
  cases h with
  | lex h =>
    rw [lint_of_lexError h]
    exact ⟨_, List.mem_singleton_self _, rfl, rfl⟩
  | unparsed htok h =>
    rw [lint_of_parseError htok h, (Recovery.extends_errorsAfter htok h).kept]
    exact ⟨_, List.mem_cons_self, rfl, rfl⟩
  | violation h hissue =>
    rw [lint_of_parse h]
    exact Schema.exists_diagnostic.1 _ hissue
  | style h htx hissue =>
    rw [lint_of_parse h]
    exact ⟨_, Schema.exists_diagnostic.2 _ htx _ hissue, rfl, rfl⟩

end Sources

/-- Every diagnostic of a source has the span of the text that it talks about, and its fix replaces this
text; the diagnostics come in the order of the text; and there is one for whatever is wrong with the
source, at its place. -/
theorem diagnostics_point_at_text (source : String) :
    (∀ d ∈ lint source, d.Points source) ∧ ((lint source).Pairwise fun d e => d.span.offset ≤ e.span.offset) ∧
      ∀ finding span, Flaw source finding span → ∃ d ∈ lint source, d.finding = finding ∧ d.span = span := by
  refine ⟨?_, pairwise_lint source, ?_⟩
  · intro d hd
    exact points_of_mem_lint hd
  · intro finding span hflaw
    exact exists_diagnostic_of_flaw hflaw

/-- The fix of a call of `g` replaces the name `g`. -/
theorem place_of_wrongCall :
    let source := "transaction T\x7bfunction f()\x7b\x7dblock A\x7bcall g(1)\x7d\x7d"
    ∃ d ∈ lint source, d.fix = some ⟨41, 42, "f"⟩ ∧ d.span.Denotes source "g" ∧
      ∃ category, d.finding = .violation (.unresolved category "g") := by
  intro source
  have hfix : (⟨41, 42, "f"⟩ : Edit) ∈ fixesOf (lint source) := by
    rw [fixesOf_wrongCall]
    exact List.mem_singleton_self _
  obtain ⟨d, hd, hfix⟩ := List.mem_filterMap.1 hfix
  obtain ⟨category, name, hfinding⟩ := unresolved_of_fix hd (by rw [hfix]; exact Option.some_ne_none _)
  obtain ⟨⟨text, hdenotes, habout⟩, hplace⟩ := (diagnostics_point_at_text source).1 d hd
  obtain ⟨hstart, hstop⟩ : 41 = d.span.offset ∧ 42 = d.span.offset + d.span.length := hplace _ hfix
  rw [hfinding] at habout
  obtain ⟨-, -, rfl⟩ : ∃ s, parse source = .ok s ∧ text = name := habout
  have hlength : d.span.length = 1 := by omega
  have htext : text.toList = ['g'] := by
    rw [← hdenotes.slice, ← hstart, hlength]
    decide
  obtain rfl : text = "g" := String.toList_injective htext
  exact ⟨d, hd, hfix, hdenotes, category, hfinding⟩

end Parley
