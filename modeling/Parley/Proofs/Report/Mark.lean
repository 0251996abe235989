/-
What the snippet of a diagnostic marks. The bytes lie in the source and cut no character: they are the
text that the diagnostic talks about, and where there is none because the part that was read ended
before a declaration, the first letter of its keyword. Where the source ends there is no letter left,
and nothing is marked.
-/
import Parley.Proofs.Lint.OneLine
import Parley.Report.Snippet

namespace Parley

open Scan

/-! ## Texts of spans -/

/-- A span that denotes a text has it between what comes before and what comes after. -/
theorem Span.Denotes.exists_split {source text : String} {s : Span} (h : s.Denotes source text) :
    ∃ before after, source.toList = before ++ (text.toList ++ after) ∧ byteLength before = s.offset ∧
      byteLength text.toList = s.length := by
  obtain ⟨before, rest, hsource, hbefore⟩ := isBoundary_iff.1 h.starts
  have hstop : byteLength before ≤ s.stop := hbefore ▸ Nat.le_add_right _ _
  obtain ⟨gap, after, rfl, hgap⟩ := CutAt.behind (hsource ▸ isBoundary_iff.1 h.stops) hstop
  have hlength : s.length = byteLength gap := by
    have : s.stop = s.offset + s.length := rfl
    omega
  have hslice := h.slice
  rw [← hbefore, hlength, hsource, dropBytes_prefix, takeBytes_prefix] at hslice
  rw [← hslice]
  exact ⟨before, after, hsource, hbefore, hlength.symm⟩

theorem utf8Size_of_startsName {c : Char} (h : CharClass.startsName c = true) : c.utf8Size = 1 := by
  rw [Char.utf8Size_eq_one_iff, UInt32.le_iff_toNat_le]
  show c.toNat ≤ 127
  rcases startsName_iff_isAlpha.1 h with halpha | rfl
  · have := isAlpha_iff_toNat.1 halpha
    omega
  · decide

section Lexemes

variable {source : String} {ls : List Lexeme} {l : Lexeme} (h : tokenize source = .ok ls) (hl : l ∈ ls)

include h hl

theorem text_of_lexeme_ne_empty : l.text ≠ "" := by
  obtain ⟨text, rest, htext, hshape⟩ := exists_shape h hl
  rw [htext, ← String.ofList_nil]
  exact fun heq => hshape.stands.text_ne_nil (String.ofList_injective heq)

/-- A keyword starts with a letter, which is one byte. -/
theorem text_of_keyword {word : Keyword} (hword : l.token = .keyword word) : ∃ c w, l.text.toList = c :: w ∧ c.utf8Size = 1 := by
  obtain ⟨text, rest, htext, hshape⟩ := exists_shape h hl
  obtain ⟨c, w, hchars, hstarts⟩ := hshape.of_keyword (congrArg some hword)
  rw [htext, String.toList_ofList]
  exact ⟨c, w, hchars, utf8Size_of_startsName hstarts⟩

end Lexemes

/-! ## Texts of findings -/

/-- A finding that talks about a name shows one. -/
def Finding.Named : Finding → Prop
  | .violation v => IsName v.name
  | .style flaw => IsName flaw.name
  | .lex _ | .parse _ | .unreadable _ | .unwritable _ => True

theorem IsName.ne_empty {word : String} (h : IsName word) : word ≠ "" := by
  rintro rfl
  cases h.1

theorem named_of_mem_lint {source : String} {d : Diagnostic} (hd : d ∈ lint source) : d.finding.Named := by
  cases htok : tokenize source with
  | error e =>
    rw [lint_of_lexError htok] at hd
    obtain rfl := List.mem_singleton.1 hd
    trivial
  | ok ls =>
    cases hparse : parseTokens source ls with
    | error strict =>
      rw [lint_of_parseError htok hparse] at hd
      obtain ⟨e, -, rfl⟩ := List.mem_map.1 hd
      trivial
    | ok s =>
      have hs : parse source = .ok s := parse_ok_iff.2 ⟨ls, htok, hparse⟩
      rw [lint_of_parse hs] at hd
      obtain ⟨place, -, htx, ⟨issue, hissue, rfl⟩ | ⟨issue, hissue, rfl⟩⟩ := Schema.exists_place_of_mem hd
      · rw [Diagnostic.finding_ofIssue]
        exact isName_of_diagnosed ((wellFormed_of_parse hs).2 _ htx) hissue
      · exact isName_of_style ((wellFormed_of_parse hs).2 _ htx) hissue

/-- A violation talks about a text that is not empty. -/
theorem Violation.About.text_ne_empty {source text : String} {s : Schema} {span : Span} {v : Violation} (hname : IsName v.name)
    (h : v.About source s span text) : text ≠ "" := by
  cases v with
  | duplicate | missingActor | missingMessage | missingEntry => exact h.1 ▸ hname.ne_empty
  | unresolved | unreachable => exact h ▸ hname.ne_empty
  | arity name expected actual =>
    rintro rfl
    obtain ⟨⟨more, ls, htok, htokens, -, -⟩, -⟩ := h
    have hnone : tokenize "" = .ok [] := tokenize_ok_iff.2 ⟨[], trivial, rfl, rfl⟩
    obtain rfl := Except.ok.inj (htok.symm.trans hnone)
    cases htokens
  | unknownType name =>
    rintro rfl
    have hempty : name.toList = [] := List.prefix_nil.1 h
    exact hname.ne_empty (String.toList_injective hempty)

/-! ## Marks -/

namespace Diagnostic

/-- A syntax error that stands where the source ends. -/
def MeetsEnd (source : String) (d : Diagnostic) : Prop :=
  d.span = Span.atEnd source ∧ ∃ e, d.finding = .parse e ∧ e.found = none

/-- The bytes that the snippet marks, from the first to behind the last. -/
def marked (source : String) (d : Diagnostic) : Nat × Nat := Report.Snippet.byteRange (byteLength source.toList) d.span

/-- What a snippet marks: a part of the source between characters, which is the span of the diagnostic if
this is not empty, and else the character that stands there, if there is one. -/
structure Marks (source : String) (d : Diagnostic) : Prop where
  located : d.span.line ≠ 0
  ordered : (d.marked source).1 ≤ (d.marked source).2
  inside : (d.marked source).2 ≤ byteLength source.toList
  starts : isBoundary source.toList (d.marked source).1 = true
  stops : isBoundary source.toList (d.marked source).2 = true
  whole : d.span.length ≠ 0 → d.marked source = (d.span.offset, d.span.stop)
  single : d.span.length = 0 → ¬d.MeetsEnd source → d.marked source = (d.span.offset, d.span.offset + 1)
  visible : (d.marked source).1 < (d.marked source).2 ↔ ¬d.MeetsEnd source
  shown : let mark := Report.Snippet.markOf source.toList d.span
    mark.start < mark.stop ↔ ¬d.MeetsEnd source

/-- What there is to mark where a diagnostic stands. -/
inductive Shows (source : String) (d : Diagnostic) : Prop
  | text (before text after : List Char) (cut : source.toList = before ++ (text ++ after)) (starts : d.span.offset = byteLength before)
    (covers : d.span.length = byteLength text) (some : text ≠ [])
  | letter (before : List Char) (c : Char) (after : List Char) (cut : source.toList = before ++ ([c] ++ after))
    (starts : d.span.offset = byteLength before) (empty : d.span.length = 0) (one : c.utf8Size = 1)
  | nothing (meets : d.MeetsEnd source)

variable {source : String} {d : Diagnostic}

theorem Shows.of_text {text : String} (h : d.span.Denotes source text) (hne : text ≠ "") : d.Shows source := by
  obtain ⟨before, after, hcut, hbefore, hlength⟩ := h.exists_split
  exact .text before text.toList after hcut hbefore.symm hlength.symm fun h => hne (String.toList_injective h)

/-- Where a diagnostic denotes no text it stands before a keyword or at the end of the source. -/
theorem Shows.of_syntaxSpot {ls : List Lexeme} {e : ParseError} {text : String} (htok : tokenize source = .ok ls)
    (hfinding : d.finding = .parse e) (h : d.span.Denotes source text) (hspot : SyntaxSpot source ls d.span text e.found) :
    d.Shows source := by
  obtain ⟨-, -, -, -, hlength⟩ := h.exists_split
  generalize hfound : e.found = found at hspot
  cases hspot with
  | token l hl stands reads => exact .of_text h (reads ▸ text_of_lexeme_ne_empty htok hl)
  | atEnd stands reads =>
    subst reads
    have hspan := h.eq_ofRange
    rw [Span.stop, ← hlength, stands] at hspan
    exact .nothing ⟨hspan, e, hfinding, hfound⟩
  | before us l vs cut later opens stands reads =>
    subst reads
    have hl : l ∈ ls := cut ▸ List.mem_append_right _ List.mem_cons_self
    obtain ⟨word, hword⟩ : ∃ word, l.token = .keyword word := by
      cases htoken : l.token with
      | keyword word => exact ⟨word, rfl⟩
      | symbol | integer | string | name => rw [htoken] at opens; cases opens
    obtain ⟨c, w, htext, hone⟩ := text_of_keyword htok hl hword
    obtain ⟨before, after, hsource, hbefore, -⟩ := (denotes_lexeme htok hl).exists_split
    rw [htext] at hsource
    exact .letter before c (w ++ after) hsource (stands.trans hbefore.symm) hlength.symm hone

theorem shows_of_mem_lint (hd : d ∈ lint source) : d.Shows source := by
  obtain ⟨text, hdenotes, habout⟩ := (points_of_mem_lint hd).text
  have hnamed := named_of_mem_lint hd
  cases hfinding : d.finding with
  | lex e =>
    rw [hfinding] at habout
    obtain ⟨htok, rfl⟩ := habout
    obtain ⟨xs, c, w, after, -, -, rfl⟩ := cut_of_error htok
    exact .of_text hdenotes fun h => List.cons_ne_nil c w (String.ofList_injective h)
  | parse e =>
    rw [hfinding] at habout
    obtain ⟨ls, htok, hspot⟩ := habout
    exact .of_syntaxSpot htok hfinding hdenotes hspot
  | unreadable | unwritable =>
    rw [hfinding] at habout
    exact habout.elim
  | violation v =>
    rw [hfinding] at habout hnamed
    obtain ⟨s, -, habout⟩ := habout
    exact .of_text hdenotes (habout.text_ne_empty hnamed)
  | style flaw =>
    rw [hfinding] at habout hnamed
    refine .of_text hdenotes ?_
    cases flaw with
    | misspelled | unused => exact habout ▸ IsName.ne_empty hnamed

/-! ## What is marked -/

/-- The bytes of a diagnostic are marked, or the one byte that stands there, as far as the source has them. -/
theorem marked_eq {start stop : Nat} (hstart : start = d.span.offset) (hle : start ≤ stop)
    (hstop : min (max d.span.stop (d.span.offset + 1)) (byteLength source.toList) = stop) : d.marked source = (start, stop) := by
  rw [marked, Report.Snippet.byteRange, hstop, ← hstart, Nat.min_eq_left hle]

/-- A marked part of the source has no character exactly if its range is empty, in bytes and in characters. -/
theorem marked_part {before text after : List Char} (hcut : source.toList = before ++ (text ++ after))
    (hmarked : d.marked source = (byteLength before, byteLength before + byteLength text)) :
    ((d.marked source).1 ≤ (d.marked source).2 ∧ (d.marked source).2 ≤ byteLength source.toList) ∧
      (isBoundary source.toList (d.marked source).1 = true ∧ isBoundary source.toList (d.marked source).2 = true) ∧
      ((d.marked source).1 < (d.marked source).2 ↔ text ≠ []) ∧
      ((Report.Snippet.markOf source.toList d.span).start < (Report.Snippet.markOf source.toList d.span).stop ↔ text ≠ []) := by
  have hstop : byteLength before + byteLength text = byteLength (before ++ text) := (byteLength_append _ _).symm
  have hsource : source.toList = (before ++ text) ++ after := by rw [hcut, List.append_assoc]
  have hmark : Report.Snippet.markOf source.toList d.span = ⟨before.length, (before ++ text).length⟩ := by
    show Report.Snippet.Mark.mk (takeBytes (d.marked source).1 source.toList).length
      (takeBytes (d.marked source).2 source.toList).length = _
    rw [hmarked, hstop, hsource, takeBytes_prefix, List.append_assoc, takeBytes_prefix]
  rw [hmark, hmarked]
  refine ⟨⟨Nat.le_add_right _ _, ?_⟩, ⟨?_, ?_⟩, ?_, ?_⟩
  · rw [hcut, byteLength_append, byteLength_append]
    omega
  · exact hcut ▸ isBoundary_prefix _ _
  · show isBoundary source.toList (byteLength before + byteLength text) = true
    rw [hstop, hsource]
    exact isBoundary_prefix _ _
  · rw [Nat.lt_add_right_iff_pos, Nat.pos_iff_ne_zero, ne_eq, not_iff_not]
    exact ⟨byteLength_eq_zero, fun h => h ▸ rfl⟩
  · show before.length < (before ++ text).length ↔ _
    rw [List.length_append, Nat.lt_add_right_iff_pos, List.length_pos_iff]

theorem MeetsEnd.offset (h : d.MeetsEnd source) : d.span.offset = byteLength source.toList := by
  rw [h.1, Span.offset_atEnd]

/-- In each case a part of the source is marked, which is empty only where the source ends. -/
theorem Shows.exists_part (h : d.Shows source) : ∃ before text after, source.toList = before ++ (text ++ after) ∧
    d.span.offset = byteLength before ∧ d.marked source = (byteLength before, byteLength before + byteLength text) ∧
    (text ≠ [] ↔ ¬d.MeetsEnd source) ∧ (d.span.length ≠ 0 → byteLength text = d.span.length) ∧
    (d.span.length = 0 → text ≠ [] → byteLength text = 1) := by
  cases h with
  | text before text after cut starts covers some =>
    have hpos := byteLength_pos some
    have htotal : byteLength source.toList = byteLength before + (byteLength text + byteLength after) := by
      rw [cut, byteLength_append, byteLength_append]
    have hend : ¬d.MeetsEnd source := fun h => by
      have := h.offset
      omega
    refine ⟨before, text, after, cut, starts, marked_eq starts.symm (Nat.le_add_right _ _) ?_, by simp [some, hend],
      fun _ => covers.symm, fun h => absurd h (by omega)⟩
    rw [Span.stop, covers, htotal]
    omega
  | letter before c after cut starts empty one =>
    have hletter : byteLength [c] = 1 := by simp [one]
    have htotal : byteLength source.toList = byteLength before + (1 + byteLength after) := by
      rw [cut, byteLength_append, byteLength_append, hletter]
    have hend : ¬d.MeetsEnd source := fun h => by
      have := h.offset
      omega
    refine ⟨before, [c], after, cut, starts, marked_eq starts.symm (Nat.le_add_right _ _) ?_, by simp [hend],
      fun h => absurd empty h, fun _ _ => hletter⟩
    rw [Span.stop, empty, hletter, htotal]
    omega
  | nothing meets =>
    have hoffset := meets.offset
    refine ⟨source.toList, [], [], by simp, hoffset, marked_eq hoffset.symm (Nat.le_add_right _ _) ?_, by simp [meets], ?_,
      fun _ h => absurd rfl h⟩
    · rw [hoffset, byteLength_nil]
      omega
    · rw [meets.1, Span.length_atEnd]
      exact fun h => absurd rfl h

theorem Shows.marks (h : d.Shows source) (hline : d.span.line ≠ 0) : d.Marks source := by
  obtain ⟨before, text, after, hcut, hstarts, hmarked, hmeets, hwhole, hsingle⟩ := h.exists_part
  obtain ⟨⟨hordered, hinside⟩, ⟨hfirst, hlast⟩, hvisible, hshown⟩ := marked_part hcut hmarked
  exact {
    located := hline
    ordered := hordered
    inside := hinside
    starts := hfirst
    stops := hlast
    whole := fun h => by rw [hmarked, hwhole h, hstarts, Span.stop, hstarts]
    single := fun h hend => by rw [hmarked, hsingle h (hmeets.2 hend), hstarts]
    visible := hvisible.trans hmeets
    shown := hshown.trans hmeets }

end Diagnostic

/-- Every diagnostic of a source has a place, and what its snippet marks there lies in the source between
characters: the span of the diagnostic, or one character where this is empty. Only a syntax error at
the end of the source marks nothing. -/
theorem diagnostics_mark_source (source : String) : ∀ d ∈ lint source, d.Marks source := by
  intro d hd
  obtain ⟨text, hdenotes, -⟩ := (points_of_mem_lint hd).text
  have hline : d.span.line ≠ 0 := by
    rw [hdenotes.line]
    exact Nat.succ_ne_zero _
  exact (Diagnostic.shows_of_mem_lint hd).marks hline

/-- An actor without braces, before the next one: the letter `a` is marked. -/
theorem marks_of_actor_without_braces :
    let source := "transaction T\x7bactor A actor B actor C\x7b\x7d\x7d"
    ∃ d ∈ lint source, d.span = ⟨30, 0, 1, 31⟩ ∧ d.Marks source ∧ d.marked source = (30, 31) := by
  intro source
  have hspans : (lint source).map (·.span) = [⟨22, 5, 1, 23⟩, ⟨30, 0, 1, 31⟩] := by cbv
  have hmem : (⟨30, 0, 1, 31⟩ : Span) ∈ (lint source).map (·.span) := by
    rw [hspans]
    exact List.mem_cons_of_mem _ List.mem_cons_self
  obtain ⟨d, hd, hspan⟩ := List.mem_map.1 hmem
  have hmarks := diagnostics_mark_source source d hd
  have hmarked : d.marked source = (30, 31) := by
    rw [Diagnostic.marked, hspan]
    decide
  exact ⟨d, hd, hspan, hmarks, hmarked⟩

/-- A transaction that ends behind its keyword: no byte is marked. -/
theorem unmarked_after_keyword :
    ∃ d ∈ lint "transaction", d.span.line ≠ 0 ∧ d.marked "transaction" = (11, 11) ∧
      ¬(d.marked "transaction").1 < (d.marked "transaction").2 := by
  have hspans : (lint "transaction").map (·.span) = [⟨11, 0, 1, 12⟩] := by cbv
  have hmem : (⟨11, 0, 1, 12⟩ : Span) ∈ (lint "transaction").map (·.span) := by
    rw [hspans]
    exact List.mem_singleton_self _
  obtain ⟨d, hd, hspan⟩ := List.mem_map.1 hmem
  have hmarked : d.marked "transaction" = (11, 11) := by
    rw [Diagnostic.marked, hspan]
    decide
  refine ⟨d, hd, ?_, hmarked, ?_⟩
  · rw [hspan]
    decide
  · rw [hmarked]
    decide

end Parley
