/-
Nothing of a text is read twice and nothing is skipped but filler. The tokens of a text have the texts
that it has at their places, one after the other, and between them, before the first and after the
last there is only white space and comments. A text that is refused is good up to the piece that the
error names.
-/
import Parley.Proofs.Token.Place
import Mathlib

namespace Parley

/-- A text between tokens, with `after` behind it: white space, and comments to the end of their line. -/
inductive Filler (after : List Char) : List Char → Prop
  | nil : Filler after []
  | blank (c : Char) (cs : List Char) (white : c ∈ [' ', '\t', '\r', '\n', '\x0c']) (rest : Filler after cs) :
      Filler after (c :: cs)
  | comment (w cs : List Char) (opens : ['#'] <+: w ∨ ['/', '/'] <+: w) (line : '\n' ∉ w)
      (ends : ∀ c ∈ (cs ++ after).head?, c = '\n') (rest : Filler after cs) : Filler after (w ++ cs)

/-- Where the gap after some tokens starts. -/
def gapStart (us : List Lexeme) : Nat := us.getLast?.elim 0 (·.span.stop)

/-- Where the gap before some tokens stops. -/
def gapStop (source : String) (vs : List Lexeme) : Nat := vs.head?.elim (byteLength source.toList) (·.span.offset)

/-- Tokens stand one after the other in a text, each with the text at its place, and wherever they are
parted there is only filler between them. -/
structure Tiles (source : String) (ls : List Lexeme) : Prop where
  denotes : ∀ l ∈ ls, l.span.Denotes source l.text
  nonempty : ∀ l ∈ ls, 0 < l.span.length
  increasing : ls.Pairwise fun l m => l.span.offset < m.span.offset
  disjoint : ls.Pairwise fun l m => l.span.stop ≤ m.span.offset
  gaps : ∀ us vs, ls = us ++ vs → gapStart us ≤ gapStop source vs ∧
    Filler (dropBytes (gapStop source vs) source.toList)
      (takeBytes (gapStop source vs - gapStart us) (dropBytes (gapStart us) source.toList))

/-- An error names a piece of a text by its place and its first character; the text before it is read. -/
structure Rejects (source : String) (e : LexError) : Prop where
  denotes : e.span.Denotes source e.text
  nonempty : 0 < e.span.length
  character : e.text.toList.head? = some e.character
  before : ∃ ls, tokenize (String.ofList (takeBytes e.span.offset source.toList)) = .ok ls

namespace Scan

/-! ## Gaps -/

/-- A stretch without a token is filler before filler. -/
theorem Shape.filler {x : Stretch} {cs after : List Char} (h : Shape (cs ++ after) x) (hx : x.token = none)
    (hcs : Filler after cs) : Filler after (x.text ++ cs) := by
  cases h with
  | blank c gap =>
    refine .blank c cs ?_ hcs
    simpa [isGap, or_assoc] using gap
  | comment c w opens line ends =>
    refine .comment (c :: w) cs ?_ ?_ (fun d hd => by simpa using ends d hd) hcs
    · rcases opens with rfl | ⟨rfl, hw⟩
      · exact .inl (by simp)
      · obtain ⟨w, rfl⟩ := List.head?_eq_some_iff.1 hw
        exact .inr (by simp)
    · have hc : c ≠ '\n' := by rcases opens with rfl | ⟨rfl, -⟩ <;> decide
      intro hfeed
      rcases List.mem_cons.1 hfeed with hfeed | hfeed
      · exact hc hfeed.symm
      · simpa using line _ hfeed
  | word | number | string | symbol => cases hx

theorem Cut.filler {xs : List Stretch} {after : List Char} (h : Cut xs after) (hxs : ∀ x ∈ xs, x.token = none) :
    Filler after (textOf xs) := by
  induction xs with
  | nil => exact .nil
  | cons x xs ih =>
    obtain ⟨hx, hxs⟩ := List.forall_mem_cons.1 hxs
    exact h.1.shape.filler hx (ih h.2 hxs)

theorem gaps_of_placed {p : Position} {xs : List Stretch} (h : placed p xs = []) : ∀ x ∈ xs, x.token = none := by
  intro x hx
  by_contra htoken
  obtain ⟨t, ht⟩ := Option.ne_none_iff_exists'.1 htoken
  have hmem : t ∈ (placed p xs).map (·.token) := by
    rw [tokens_placed]
    exact List.mem_filterMap.2 ⟨x, hx, ht⟩
  rw [h] at hmem
  cases hmem

/-- Where a list of lexemes is parted the stretches fall into those up to the last token before, a gap,
and those from the first token after. -/
theorem cut_around {p : Position} {xs : List Stretch} {us vs : List Lexeme} (h : placed p xs = us ++ vs) :
    ∃ as gs bs, xs = as ++ (gs ++ bs) ∧ placed p as = us ∧ placed (p.after (textOf (as ++ gs))) bs = vs ∧
      (∀ x ∈ as.getLast?, x.token ≠ none) ∧ (∀ x ∈ gs, x.token = none) ∧ ∀ x ∈ bs.head?, x.token ≠ none := by
  obtain ⟨as, bs, rfl, has, hvs, hfirst⟩ := cut_before h
  have hnone : placed p as = us ++ [] := has.trans (List.append_nil us).symm
  obtain ⟨as, gs, rfl, hus, hlast⟩ := cut_behind hnone
  rw [placed_append, hus] at has
  exact ⟨as, gs, bs, List.append_assoc .., hus, hvs, hlast, gaps_of_placed (List.append_right_eq_self.1 has), hfirst⟩

theorem gapStart_placed {xs : List Stretch} (h : ∀ x ∈ xs.getLast?, x.token ≠ none) :
    gapStart (placed .first xs) = byteLength (textOf xs) := by
  by_cases hne : xs = []
  · rw [hne]
    rfl
  · obtain ⟨l, hl, hstop⟩ := getLast?_placed hne .first h
    rw [gapStart, hl, Option.elim_some, hstop]
    exact Nat.zero_add _

theorem gapStop_placed {source : String} {as bs : List Stretch} (hsource : source.toList = textOf as ++ textOf bs)
    (h : ∀ x ∈ bs.head?, x.token ≠ none) :
    gapStop source (placed (Position.first.after (textOf as)) bs) = byteLength (textOf as) := by
  by_cases hne : bs = []
  · rw [hne, gapStop, hsource, hne]
    simp [placed]
  · obtain ⟨l, hl, n, hspan⟩ := head?_placed hne (Position.first.after (textOf as)) h
    rw [gapStop, hl, Option.elim_some, hspan]
    show (Position.first.after (textOf as)).offset = _
    rw [Position.offset_after]
    exact Nat.zero_add _

end Scan

open Scan

/-- The tokens that are read from a text tile it. -/
theorem tiles_of_tokenize {source : String} {ls : List Lexeme} (h : tokenize source = .ok ls) : Tiles source ls := by
  obtain ⟨xs, hcut, htext, rfl⟩ := tokenize_ok_iff.1 h
  obtain ⟨hplaces, hdisjoint⟩ := placed_places .first xs hcut.text_ne_nil
  have hnonempty : ∀ l ∈ placed .first xs, 0 < l.span.length := fun l hl => (hplaces l hl).2.2
  constructor
  case denotes => exact fun l hl => denotes_lexeme h hl
  case nonempty => exact hnonempty
  case increasing =>
    refine hdisjoint.imp_of_mem fun {l m} hl _ hstop => ?_
    have := hnonempty l hl
    unfold Span.stop at hstop
    omega
  case disjoint => exact hdisjoint
  case gaps =>
    intro us vs hls
    obtain ⟨as, gs, bs, rfl, rfl, rfl, hlast, hgaps, hfirst⟩ := cut_around hls
    obtain ⟨-, hcut⟩ := cut_append.1 hcut
    obtain ⟨hcut, -⟩ := cut_append.1 hcut
    have hsource : source.toList = textOf (as ++ gs) ++ textOf bs := by
      rw [← htext, textOf_append, textOf_append, textOf_append, List.append_assoc]
    rw [gapStart_placed hlast, gapStop_placed hsource hfirst, textOf_append, byteLength_append, Nat.add_sub_cancel_left]
    refine ⟨Nat.le_add_right _ _, ?_⟩
    have hbehind : dropBytes (byteLength (textOf as) + byteLength (textOf gs)) source.toList = textOf bs := by
      rw [← byteLength_append, ← textOf_append, hsource, dropBytes_prefix]
    have hgap : takeBytes (byteLength (textOf gs)) (dropBytes (byteLength (textOf as)) source.toList) = textOf gs := by
      rw [hsource, textOf_append, List.append_assoc, dropBytes_prefix, takeBytes_prefix]
    rw [hbehind, hgap]
    rw [List.append_nil] at hcut
    exact hcut.filler hgaps

/-- The error of a text that is not read rejects a piece of it. -/
theorem rejects_of_tokenize {source : String} {e : LexError} (h : tokenize source = .error e) : Rejects source e := by
  obtain ⟨xs, c, w, after, hsource, hcut, rfl⟩ := cut_of_error h
  constructor
  case denotes => exact denotes_lexError h
  case nonempty => exact byteLength_pos (List.cons_ne_nil c w)
  case character =>
    rw [String.toList_ofList]
    rfl
  case before =>
    have hoffset : (Span.startingAt (Position.first.after (textOf xs)) (byteLength (c :: w))).offset = byteLength (textOf xs) :=
      (Position.offset_after _ _).trans (Nat.zero_add _)
    rw [hoffset, hsource, takeBytes_prefix]
    exact ⟨_, tokenize_ok_iff.2 ⟨xs, hcut.before_nothing, String.toList_ofList.symm, rfl⟩⟩

/-- Reading tiles a text with tokens, or rejects a piece of it behind a text that is good. -/
theorem tokenize_tiles (source : String) :
    (∀ ls, tokenize source = .ok ls → Tiles source ls) ∧ ∀ e, tokenize source = .error e → Rejects source e := by
  constructor
  · intro ls h
    exact tiles_of_tokenize h
  · intro e h
    exact rejects_of_tokenize h

/-- Two names with two comments between them, one of them with a character of two bytes; and a literal
that is not closed. -/
theorem tiling_around_comments :
    (∃ ls, tokenize "a # é\r\n//b\n c" = .ok ls ∧ Tiles "a # é\r\n//b\n c" ls ∧ ls.map (·.span.offset) = [0, 13]) ∧
      ∃ e, tokenize "a \"b\nc" = .error e ∧ Rejects "a \"b\nc" e ∧ e.text = "\"b" := by
  have htokens : tokenize "a # é\r\n//b\n c" = .ok [⟨.name "a", "a", ⟨0, 1, 1, 1⟩⟩, ⟨.name "c", "c", ⟨13, 1, 3, 2⟩⟩] := by cbv
  have herror : tokenize "a \"b\nc" = .error ⟨'"', "\"b", ⟨2, 2, 1, 3⟩⟩ := by cbv
  refine ⟨⟨_, htokens, (tokenize_tiles _).1 _ htokens, rfl⟩, ?_⟩
  exact ⟨_, herror, (tokenize_tiles _).2 _ herror, rfl⟩

end Parley
