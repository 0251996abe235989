/-
Where things stand in a text. A span denotes the text between its ends: both lie in the source
between characters, and its line and column are those of its start. Every lexeme has the span of its
text; the span from the first to the last of neighbouring lexemes denotes a text of their tokens
with no gap around them; and an error of the scanner has the span of the text it rejects.
-/
import Parley.Proofs.Text.LineIndex
import Parley.Proofs.Token.Respell

namespace Parley

/-! ## Spans -/

/-- A span denotes a text: the source has it between the ends of the span, which lie between
characters, and the line and the column are those of the start. -/
structure Span.Denotes (source : String) (s : Span) (text : String) : Prop where
  inside : s.stop ≤ byteLength source.toList
  starts : isBoundary source.toList s.offset = true
  stops : isBoundary source.toList s.stop = true
  slice : takeBytes s.length (dropBytes s.offset source.toList) = text.toList
  line : s.line = (takeBytes s.offset source.toList).count '\n' + 1
  column : s.column = (lastLine (takeBytes s.offset source.toList)).length + 1

/-- A span that denotes a text is the span of the bytes between its ends. -/
theorem Span.Denotes.eq_ofRange {source text : String} {s : Span} (h : s.Denotes source text) :
    s = Span.ofRange source s.offset s.stop := by
  obtain ⟨before, after, hsource, hbefore⟩ := isBoundary_iff.1 h.starts
  have hline := h.line
  have hcolumn := h.column
  rw [hsource, ← hbefore, takeBytes_prefix] at hline hcolumn
  have hstop : min (max s.stop (byteLength before)) (byteLength source.toList) - byteLength before = s.length := by
    have hinside := h.inside
    have hstop : s.stop = s.offset + s.length := rfl
    omega
  rw [← hbefore, ofRange_prefix hsource, hstop, hbefore, ← hline, ← hcolumn]

namespace Scan

theorem denotes_startingAt {source : String} {before text after : List Char} (h : source.toList = before ++ (text ++ after)) :
    (Span.startingAt (Position.first.after before) (byteLength text)).Denotes source (String.ofList text) := by
  have hbefore : takeBytes (byteLength before) source.toList = before := by rw [h, takeBytes_prefix]
  rw [Position.after_first]
  constructor
  case inside =>
    rw [h, byteLength_append, byteLength_append, ← Nat.add_assoc]
    exact Nat.le_add_right _ _
  case starts =>
    rw [h]
    exact isBoundary_prefix _ _
  case stops =>
    have hstop := isBoundary_prefix (before ++ text) after
    rwa [byteLength_append, List.append_assoc, ← h] at hstop
  case slice =>
    show takeBytes (byteLength text) (dropBytes (byteLength before) source.toList) = _
    rw [h, dropBytes_prefix, takeBytes_prefix, String.toList_ofList]
  case line => exact congrArg (fun w => List.count '\n' w + 1) hbefore.symm
  case column => exact congrArg (fun w => (lastLine w).length + 1) hbefore.symm

/-! ## Runs of lexemes -/

/-- The span from the first to the last of some lexemes. -/
def rangeOf (ls : List Lexeme) : Span := (ls.head?.elim .nowhere (·.span)).upTo (ls.getLast?.elim .nowhere (·.span))

@[simp] theorem rangeOf_singleton (l : Lexeme) : rangeOf [l] = l.span := by
  have hlength : l.span.stop - l.span.offset = l.span.length := Nat.add_sub_cancel_left _ _
  show { l.span with length := l.span.stop - l.span.offset } = l.span
  rw [hlength]

theorem placed_append (p : Position) (xs ys : List Stretch) :
    placed p (xs ++ ys) = placed p xs ++ placed (p.after (textOf xs)) ys := by
  induction xs generalizing p with
  | nil => rfl
  | cons x xs ih =>
    rw [textOf_cons, Position.after_append]
    rcases x with ⟨_ | t, text⟩
    · exact ih _
    · exact congrArg (_ :: ·) (ih _)

/-- Stretches without a gap before or after the tokens. -/
structure Trim (xs : List Stretch) : Prop where
  first : ∀ x ∈ xs.head?, x.token ≠ none
  last : ∀ x ∈ xs.getLast?, x.token ≠ none

section Trimmed

variable {xs : List Stretch} (hne : xs ≠ []) (p : Position)

include hne

/-- The first of the lexemes starts where the stretches start. -/
theorem head?_placed (hfirst : ∀ x ∈ xs.head?, x.token ≠ none) :
    ∃ l, (placed p xs).head? = some l ∧ ∃ n, l.span = Span.startingAt p n := by
  obtain ⟨⟨token, text⟩, ys, rfl⟩ := List.exists_cons_of_ne_nil hne
  obtain ⟨t, rfl⟩ := Option.ne_none_iff_exists'.1 (hfirst _ rfl)
  exact ⟨_, rfl, byteLength text, rfl⟩

/-- The last of the lexemes stops where the stretches stop. -/
theorem getLast?_placed (hlast : ∀ x ∈ xs.getLast?, x.token ≠ none) :
    ∃ l, (placed p xs).getLast? = some l ∧ l.span.stop = p.offset + byteLength (textOf xs) := by
  obtain ⟨ys, ⟨token, text⟩, rfl⟩ := (List.eq_nil_or_concat' xs).resolve_left hne
  obtain ⟨t, rfl⟩ := Option.ne_none_iff_exists'.1 (hlast _ List.getLast?_concat)
  rw [placed_append]
  refine ⟨_, List.getLast?_concat, ?_⟩
  rw [textOf_append, byteLength_append, ← Nat.add_assoc, ← Position.offset_after]
  simp [Span.stop, Span.startingAt]

theorem rangeOf_placed (h : Trim xs) : rangeOf (placed p xs) = Span.startingAt p (byteLength (textOf xs)) := by
  obtain ⟨l, hl, n, hspan⟩ := head?_placed hne p h.first
  obtain ⟨m, hm, hstop⟩ := getLast?_placed hne p h.last
  rw [rangeOf, hl, hm]
  show l.span.upTo m.span = _
  rw [hspan, Span.upTo, hstop]
  show Span.mk _ (p.offset + byteLength (textOf xs) - p.offset) _ _ = _
  rw [Nat.add_sub_cancel_left]
  rfl

end Trimmed

/-- Where a list of lexemes is cut the stretches are cut as well, before the next token. -/
theorem cut_before {p : Position} {xs : List Stretch} {us vs : List Lexeme} (h : placed p xs = us ++ vs) :
    ∃ as bs, xs = as ++ bs ∧ placed p as = us ∧ placed (p.after (textOf as)) bs = vs ∧ ∀ x ∈ bs.head?, x.token ≠ none := by
  induction xs generalizing p us with
  | nil =>
    obtain ⟨rfl, rfl⟩ := List.append_eq_nil_iff.1 h.symm
    exact ⟨[], [], rfl, rfl, rfl, nofun⟩
  | cons x xs ih =>
    rcases x with ⟨_ | t, text⟩
    · obtain ⟨as, bs, rfl, rfl, rfl, hfirst⟩ := ih h
      exact ⟨⟨none, text⟩ :: as, bs, rfl, rfl, by rw [textOf_cons, Position.after_append], hfirst⟩
    · rcases us with _ | ⟨l, us⟩
      · exact ⟨[], ⟨some t, text⟩ :: xs, rfl, rfl, h, by rintro x ⟨⟩; exact Option.some_ne_none t⟩
      · obtain ⟨hl, h⟩ := List.cons.inj h
        obtain ⟨as, bs, rfl, rfl, rfl, hfirst⟩ := ih h
        exact ⟨⟨some t, text⟩ :: as, bs, rfl, congrArg (· :: _) hl, by rw [textOf_cons, Position.after_append], hfirst⟩

/-- Where a list of lexemes is cut the stretches are cut as well, after the last token. -/
theorem cut_behind {p : Position} {xs : List Stretch} {us vs : List Lexeme} (h : placed p xs = us ++ vs) :
    ∃ as bs, xs = as ++ bs ∧ placed p as = us ∧ ∀ x ∈ as.getLast?, x.token ≠ none := by
  induction xs generalizing p us with
  | nil =>
    obtain ⟨rfl, -⟩ := List.append_eq_nil_iff.1 h.symm
    exact ⟨[], [], rfl, rfl, nofun⟩
  | cons x xs ih =>
    rcases us with _ | ⟨l, us⟩
    · exact ⟨[], x :: xs, rfl, rfl, nofun⟩
    rcases x with ⟨_ | t, text⟩
    · obtain ⟨as, bs, rfl, has, hlast⟩ := ih h
      refine ⟨⟨none, text⟩ :: as, bs, rfl, has, ?_⟩
      -- the gap is not the last stretch, since a lexeme comes after it
      rcases as with _ | ⟨y, as⟩
      · cases has
      · rwa [List.getLast?_cons_cons]
    · obtain ⟨hl, h⟩ := List.cons.inj h
      obtain ⟨as, bs, rfl, rfl, hlast⟩ := ih h
      refine ⟨⟨some t, text⟩ :: as, bs, rfl, congrArg (· :: _) hl, ?_⟩
      rcases as with _ | ⟨y, as⟩
      · rintro x ⟨⟩
        exact Option.some_ne_none t
      · rwa [List.getLast?_cons_cons]

/-- Neighbouring lexemes have stretches of their own. -/
theorem exists_trim {p : Position} {xs : List Stretch} {us ws vs : List Lexeme} (hws : ws ≠ [])
    (h : placed p xs = us ++ ws ++ vs) :
    ∃ as bs cs, xs = as ++ (bs ++ cs) ∧ bs ≠ [] ∧ Trim bs ∧ placed (p.after (textOf as)) bs = ws := by
  rw [List.append_assoc] at h
  obtain ⟨as, bs, rfl, -, hbs, hfirst⟩ := cut_before h
  obtain ⟨bs, cs, rfl, rfl, hlast⟩ := cut_behind hbs
  have hne : bs ≠ [] := fun h => hws (by rw [h]; rfl)
  refine ⟨as, bs, cs, rfl, hne, ⟨?_, hlast⟩, rfl⟩
  rwa [List.head?_append_of_ne_nil _ hne] at hfirst

/-- What comes after stretches may be exchanged for anything before which the last of them stands. -/
theorem Cut.before {xs : List Stretch} {rest rest' : List Char} (h : Cut xs rest)
    (hlast : ∀ x ∈ xs.getLast?, Shape rest x → Shape rest' x) : Cut xs rest' := by
  induction xs with
  | nil => trivial
  | cons x xs ih =>
    rcases xs with _ | ⟨y, ys⟩
    · exact ⟨(hlast x rfl h.1.shape).stands, trivial⟩
    · rw [List.getLast?_cons_cons] at hlast
      refine ⟨h.1.of_sameEdge (.inl ?_), ih h.2 hlast⟩
      -- the next stretch is there, whatever comes after it
      obtain ⟨c, w, hy, -⟩ := h.2.1
      rw [textOf_cons, hy]
      rfl

/-- What comes after stretches that end with a token may be exchanged for anything apart. -/
theorem Cut.before_apart {xs : List Stretch} {rest rest' : List Char} (h : Cut xs rest) (hlast : ∀ x ∈ xs.getLast?, x.token ≠ none)
    (hapart : Apart rest') : Cut xs rest' := by
  refine h.before fun x hx hshape => ?_
  have hends : ∀ d ∈ rest'.head?, CharClass.continuesName d = false := fun d hd => (hapart d hd).1
  cases hshape with
  | blank | comment => exact absurd rfl (hlast _ hx)
  | word c w starts continues ends => exact .word c w starts continues hends
  | number c w digit digits ends fits =>
    refine .number c w digit digits (fun d hd => ?_) fits
    by_contra hdigit
    have := isDigit_continues (by simpa using hdigit)
    rw [hends d hd] at this
    cases this
  | string w n value closed whole decodes => exact .string w n value closed whole decodes
  | symbol mark ends => exact .symbol mark fun _ heq => (hapart '=' heq).2 rfl

/-- Stretches are read as they are when nothing comes after them. -/
theorem Cut.before_nothing {xs : List Stretch} {rest : List Char} (h : Cut xs rest) : Cut xs [] := by
  refine h.before fun x _ hshape => ?_
  cases hshape with
  | blank c gap => exact .blank c gap
  | comment c w opens line ends => exact .comment c w opens line nofun
  | word c w starts continues ends => exact .word c w starts continues nofun
  | number c w digit digits ends fits => exact .number c w digit digits nofun fits
  | string w n value closed whole decodes => exact .string w n value closed whole decodes
  | symbol mark ends => exact .symbol mark fun _ => nofun

/-- A text of some tokens that begins with the first and ends with the last of them. -/
def Tight (text : String) (ts : List Token) : Prop :=
  ∃ ls, tokenize text = .ok ls ∧ tokensOf ls = ts ∧ ls.head?.map (·.span.offset) = some 0 ∧
    ls.getLast?.map (·.span.stop) = some (byteLength text.toList)

theorem tight_of_cut {xs : List Stretch} (hcut : Cut xs []) (htrim : Trim xs) (hne : xs ≠ []) :
    Tight (String.ofList (textOf xs)) (xs.filterMap (·.token)) := by
  obtain ⟨l, hl, n, hspan⟩ := head?_placed hne .first htrim.first
  obtain ⟨m, hm, hstop⟩ := getLast?_placed hne .first htrim.last
  refine ⟨placed .first xs, tokenize_ok_iff.2 ⟨xs, hcut, String.toList_ofList.symm, rfl⟩, tokens_placed _ _, ?_, ?_⟩
  · rw [hl, Option.map_some, hspan]
    rfl
  · rw [hm, Option.map_some, hstop, String.toList_ofList]
    exact congrArg some (Nat.zero_add _)

/-! ## Single lexemes -/

/-- A lexeme stands on a stretch of its own. -/
theorem exists_stretch {p : Position} {xs : List Stretch} {l : Lexeme} (h : l ∈ placed p xs) :
    ∃ as x bs, xs = as ++ x :: bs ∧ x.token = some l.token ∧ l.text = String.ofList x.text ∧
      l.span = Span.startingAt (p.after (textOf as)) (byteLength x.text) := by
  induction xs generalizing p with
  | nil => exact absurd h List.not_mem_nil
  | cons x xs ih =>
    have hlater : l ∈ placed (p.after x.text) xs → ∃ as y bs, x :: xs = as ++ y :: bs ∧ y.token = some l.token ∧
        l.text = String.ofList y.text ∧ l.span = Span.startingAt (p.after (textOf as)) (byteLength y.text) := by
      intro h
      obtain ⟨as, y, bs, rfl, htoken, htext, hspan⟩ := ih h
      exact ⟨x :: as, y, bs, rfl, htoken, htext, by rw [hspan, textOf_cons, Position.after_append]⟩
    rcases x with ⟨_ | t, text⟩
    · exact hlater h
    · rcases List.mem_cons.1 h with rfl | h
      · exact ⟨[], _, xs, rfl, rfl, rfl, rfl⟩
      · exact hlater h

/-- A lexeme has the shape of its token. -/
theorem exists_shape {source : String} {ls : List Lexeme} (h : tokenize source = .ok ls) {l : Lexeme} (hl : l ∈ ls) :
    ∃ text rest, l.text = String.ofList text ∧ Shape rest ⟨some l.token, text⟩ := by
  obtain ⟨xs, hcut, -, rfl⟩ := tokenize_ok_iff.1 h
  obtain ⟨as, ⟨token, text⟩, bs, rfl, htoken, htext, -⟩ := exists_stretch hl
  obtain ⟨-, hstands, -⟩ := cut_append.1 hcut
  obtain rfl : token = some l.token := htoken
  exact ⟨text, _, htext, hstands.shape⟩

/-- A scan that fails has cut the text up to the piece that it rejects. -/
theorem cut_of_error {p : Position} {e : LexError} : ∀ {cs : List Char}, tokensFrom p cs = .error e →
    ∃ xs c w after, cs = textOf xs ++ (c :: w ++ after) ∧ Cut xs (c :: w ++ after) ∧
      e = ⟨c, String.ofList (c :: w), Span.startingAt (p.after (textOf xs)) (byteLength (c :: w))⟩
  | [], h => by
    rw [tokensFrom] at h
    cases h
  | c :: cs, h => by
    rw [tokensFrom] at h
    rcases hpiece : firstPiece c cs with ⟨piece, n⟩
    rw [hpiece] at h
    have hcs : c :: cs = c :: cs.take n ++ cs.drop n := congrArg (c :: ·) (List.take_append_drop n cs).symm
    -- an error behind the first piece is one of the whole text
    have hlater : ∀ token : Option Token, token.elim .gap .token = piece →
        tokensFrom (p.after (c :: cs.take n)) (cs.drop n) = .error e →
        ∃ xs d w after, c :: cs = textOf xs ++ (d :: w ++ after) ∧ Cut xs (d :: w ++ after) ∧
          e = ⟨d, String.ofList (d :: w), Span.startingAt (p.after (textOf xs)) (byteLength (d :: w))⟩ := by
      rintro token rfl h
      obtain ⟨xs, d, w, after, hrest, hcut, rfl⟩ := cut_of_error h
      refine ⟨⟨token, c :: cs.take n⟩ :: xs, d, w, after, ?_, ⟨?_, hcut⟩, ?_⟩
      · rw [hcs, hrest, textOf_cons, List.append_assoc]
      · rw [← hrest]
        exact stands_take hpiece
      · rw [textOf_cons, Position.after_append]
    cases piece with
    | gap => exact hlater none rfl h
    | token t =>
      dsimp only at h
      cases hrest : tokensFrom (p.after (c :: cs.take n)) (cs.drop n) with
      | error e' =>
        rw [hrest] at h
        obtain rfl : e' = e := Except.error.inj h
        exact hlater (some t) rfl hrest
      | ok ls =>
        rw [hrest] at h
        cases h
    | junk =>
      obtain rfl := Except.error.inj h
      refine ⟨[], c, cs.take n, cs.drop n, hcs, trivial, ?_⟩
      rw [Position.offset_after, Nat.add_sub_cancel_left]
      rfl
termination_by cs => cs.length
decreasing_by
  simp only [List.length_drop, List.length_cons]
  omega

end Scan

section Sources

open Scan

variable {source : String} {ls : List Lexeme} {l : Lexeme}

/-- A lexeme has the span of its text. -/
theorem denotes_lexeme (h : tokenize source = .ok ls) (hl : l ∈ ls) : l.span.Denotes source l.text := by
  obtain ⟨xs, -, htext, rfl⟩ := tokenize_ok_iff.1 h
  obtain ⟨as, x, bs, rfl, -, hx, hspan⟩ := exists_stretch hl
  rw [hx, hspan]
  have hsource : source.toList = textOf as ++ (x.text ++ textOf bs) := by rw [← htext, textOf_append, textOf_cons]
  exact denotes_startingAt hsource

/-- A name is spelled as it is. -/
theorem text_of_name {word : String} (h : tokenize source = .ok ls) (hl : l ∈ ls) (hname : l.token = .name word) :
    l.text = word := by
  obtain ⟨xs, hcut, -, rfl⟩ := tokenize_ok_iff.1 h
  obtain ⟨as, x, bs, rfl, htoken, hx, -⟩ := exists_stretch hl
  rw [hname] at htoken
  obtain ⟨-, hword, -⟩ := (cut_append.1 hcut).2.1.shape.of_name htoken
  rw [hx, hword, String.ofList_toList]

theorem denotes_name {word : String} (h : tokenize source = .ok ls) (hl : l ∈ ls) (hname : l.token = .name word) :
    l.span.Denotes source word := text_of_name h hl hname ▸ denotes_lexeme h hl

/-- The span from the first to the last of neighbouring lexemes denotes a text of just their tokens,
which holds them wherever it stands apart. -/
theorem denotes_run {ws : List Lexeme} (h : tokenize source = .ok ls) (hws : ws <:+: ls) (hne : ws ≠ []) :
    ∃ text, (rangeOf ws).Denotes source text ∧ Tight text (tokensOf ws) ∧ ∀ rest, Apart rest → Holds text (tokensOf ws) rest := by
  obtain ⟨xs, hcut, htext, rfl⟩ := tokenize_ok_iff.1 h
  obtain ⟨us, vs, hls⟩ := hws
  obtain ⟨as, bs, cs, rfl, hbs, htrim, rfl⟩ := exists_trim hne hls.symm
  obtain ⟨-, hcut⟩ := cut_append.1 hcut
  obtain ⟨hcut, -⟩ := cut_append.1 hcut
  have htokens : tokensOf (placed (Position.first.after (textOf as)) bs) = bs.filterMap (·.token) := tokens_placed _ _
  refine ⟨String.ofList (textOf bs), ?_, ?_, fun rest hrest => ?_⟩
  · rw [rangeOf_placed hbs _ htrim]
    have hsource : source.toList = textOf as ++ (textOf bs ++ textOf cs) := by rw [← htext, textOf_append, textOf_append]
    exact denotes_startingAt hsource
  · rw [htokens]
    exact tight_of_cut (hcut.before_apart htrim.last nofun) htrim hbs
  · exact ⟨bs, String.toList_ofList.symm, htokens.symm, hcut.before_apart htrim.last hrest⟩

/-- An error of the scanner has the span of the text it rejects. -/
theorem denotes_lexError {e : LexError} (h : tokenize source = .error e) : e.span.Denotes source e.text := by
  obtain ⟨xs, c, w, after, hsource, -, rfl⟩ := cut_of_error h
  exact denotes_startingAt hsource

end Sources

end Parley
