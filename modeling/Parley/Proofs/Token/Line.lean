/-
Reading goes line by line. No piece of a text depends on what is behind a line feed, and none runs
over one; so the texts before and behind a line feed are read apart, and the places of the latter are
moved. An error before the line feed is the error of the whole text.
-/
import Parley.Proofs.Token.Place
import Mathlib

namespace Parley

/-! ## Places further on -/

/-- A place some bytes and some lines further on, in the same column. -/
def Position.moved (p : Position) (bytes lines : Nat) : Position := ⟨p.offset + bytes, p.line + lines, p.column⟩

def Span.moved (s : Span) (bytes lines : Nat) : Span :=
  { s with offset := s.offset + bytes, line := s.line + lines }

def Lexeme.moved (l : Lexeme) (bytes lines : Nat) : Lexeme := { l with span := l.span.moved bytes lines }

def LexError.moved (e : LexError) (bytes lines : Nat) : LexError := { e with span := e.span.moved bytes lines }

theorem Position.advance_moved (p : Position) (bytes lines : Nat) (c : Char) :
    (p.moved bytes lines).advance c = (p.advance c).moved bytes lines := by
  unfold advance moved
  split <;> simp only [Nat.add_right_comm]

theorem Position.after_moved (p : Position) (bytes lines : Nat) (cs : List Char) :
    (p.moved bytes lines).after cs = (p.after cs).moved bytes lines := by
  induction cs generalizing p with
  | nil => rfl
  | cons c cs ih => rw [after_cons, advance_moved, ih, after_cons]

namespace Scan

/-! ## Steps of the scanner -/

section Steps

variable (p : Position) {c : Char} {cs : List Char} {n : Nat}

theorem offset_sub (taken : List Char) : (p.after taken).offset - p.offset = byteLength taken := by
  rw [Position.offset_after, Nat.add_sub_cancel_left]

theorem tokensFrom_gap (h : firstPiece c cs = (.gap, n)) :
    tokensFrom p (c :: cs) = tokensFrom (p.after (c :: cs.take n)) (cs.drop n) := by
  rw [tokensFrom]
  simp only [h]

theorem tokensFrom_token {t : Token} (h : firstPiece c cs = (.token t, n)) :
    tokensFrom p (c :: cs) = (tokensFrom (p.after (c :: cs.take n)) (cs.drop n)).map
      (⟨t, String.ofList (c :: cs.take n), Span.startingAt p (byteLength (c :: cs.take n))⟩ :: ·) := by
  rw [tokensFrom]
  simp only [h, offset_sub]

theorem tokensFrom_junk (h : firstPiece c cs = (.junk, n)) : tokensFrom p (c :: cs) =
    .error ⟨c, String.ofList (c :: cs.take n), Span.startingAt p (byteLength (c :: cs.take n))⟩ := by
  rw [tokensFrom]
  simp only [h, offset_sub]

end Steps

/-- Wherever a text starts it is read as it is: what moves its start and keeps to that as the text goes on
moves the places of all that is read. -/
theorem tokensFrom_map (f : Position → Position) (g : Span → Span) (hg : ∀ q n, g (.startingAt q n) = .startingAt (f q) n)
    (p : Position) (hf : ∀ w, (f p).after w = f (p.after w)) (cs : List Char) :
    tokensFrom (f p) cs = match tokensFrom p cs with
      | .error e => .error { e with span := g e.span }
      | .ok ls => .ok (ls.map fun l => { l with span := g l.span }) := by
  have hnext : ∀ (p : Position) (w : List Char), (∀ v, (f p).after v = f (p.after v)) →
      ∀ v, (f (p.after w)).after v = f ((p.after w).after v) := by
    intro p w hf v
    rw [← hf, ← Position.after_append, hf, Position.after_append]
  fun_induction tokensFrom p cs with
  | case1 p =>
    rw [tokensFrom]
    rfl
  | case2 p c cs n taken next hpiece ih =>
    rw [tokensFrom_gap _ hpiece, hf, ih (hnext p taken hf)]
  | case3 p c cs n taken next span t hpiece ih =>
    rw [tokensFrom_token _ hpiece, hf, ih (hnext p taken hf), ← hg]
    dsimp only [span, next]
    rw [offset_sub]
    cases tokensFrom (p.after taken) (cs.drop n) <;> rfl
  | case4 p c cs n taken next span hpiece =>
    rw [tokensFrom_junk _ hpiece, ← hg]
    dsimp only [span, next]
    rw [offset_sub]

/-- A text further on is read as it is, with its places moved. -/
theorem tokensFrom_moved (p : Position) (bytes lines : Nat) (cs : List Char) :
    tokensFrom (p.moved bytes lines) cs = match tokensFrom p cs with
      | .error e => .error (e.moved bytes lines)
      | .ok ls => .ok (ls.map (·.moved bytes lines)) :=
  tokensFrom_map (·.moved bytes lines) (·.moved bytes lines) (fun _ _ => rfl) p (p.after_moved bytes lines) cs

/-! ## Pieces before a line feed -/

section Feed

variable (cs rest : List Char)

theorem takeWhile_feed {p : Char → Bool} (hp : p '\n' = false) : (cs ++ '\n' :: rest).takeWhile p = cs.takeWhile p := by
  rw [List.takeWhile_append]
  split
  · rename_i h
    rw [List.takeWhile_cons_of_neg (by simp [hp]), List.append_nil]
    exact ((List.takeWhile_prefix p).eq_of_length h).symm
  · rfl

theorem restOfLine_feed : restOfLine (cs ++ '\n' :: rest) = restOfLine cs := takeWhile_feed cs rest (by decide)

theorem insideLength_feed : Quoted.insideLength (cs ++ '\n' :: rest) = Quoted.insideLength cs := by
  fun_induction Quoted.insideLength cs with
  | case1 => rfl
  | case2 => rfl
  | case3 => rfl
  | case4 => rfl
  | case5 c cs hne ih =>
    rw [List.cons_append, List.cons_append, Quoted.insideLength, ih]
    exact hne
  | case6 c cs hquote hfeed _ hescape ih =>
    by_cases hslash : c = '\\'
    · -- a backslash that escapes nothing is the last character
      subst hslash
      cases cs with
      | nil => rfl
      | cons d cs => exact absurd rfl (hescape d cs rfl)
    · rw [List.cons_append, insideLength_plain _ hquote hfeed hslash, ih]

theorem symbol?_feed (c : Char) : symbol? c (cs ++ '\n' :: rest) = symbol? c cs := by
  have hnext : ∀ (d : Char) (ds es : List Char), symbol? c (d :: ds) = symbol? c (d :: es) := by
    intro d ds es
    unfold symbol?
    split <;> simp_all
  cases cs with
  | nil =>
    unfold symbol?
    split <;> simp_all
  | cons d cs => exact hnext d _ _

theorem stringPiece_feed : stringPiece (cs ++ '\n' :: rest) = stringPiece cs := by
  unfold stringPiece
  rw [insideLength_feed]
  cases h : Quoted.insideLength cs with
  | none =>
    dsimp only
    rw [restOfLine_feed]
  | some n =>
    dsimp only
    rw [List.take_append_of_le_length (Nat.le_of_lt (insideLength_lt h))]

/-- The first piece of a text does not depend on what is behind a line feed. -/
theorem firstPiece_feed (c : Char) : firstPiece c (cs ++ '\n' :: rest) = firstPiece c cs := by
  have hslash : (cs ++ '\n' :: rest).head? = some '/' ↔ cs.head? = some '/' := by
    cases cs <;> simp
  have hword := takeWhile_feed cs rest (p := CharClass.continuesName) (by decide)
  have hdigits := takeWhile_feed cs rest (p := Char.isDigit) (by decide)
  simp only [firstPiece, hslash, restOfLine_feed, hword, hdigits, stringPiece_feed, symbol?_feed]

/-- No piece runs over a line feed. -/
theorem feed_notMem_take (c : Char) : '\n' ∉ cs.take (firstPiece c cs).2 := by
  intro h
  obtain ⟨before, behind, hsplit⟩ := List.append_of_mem h
  have hcs : cs = before ++ '\n' :: (behind ++ cs.drop (firstPiece c cs).2) := by
    conv_lhs => rw [← List.take_append_drop (firstPiece c cs).2 cs, hsplit]
    simp
  have hle := firstPiece_le c before
  have hlength := congrArg List.length hsplit
  rw [← firstPiece_feed before (behind ++ cs.drop (firstPiece c cs).2), ← hcs] at hle
  simp only [List.length_take, List.length_append, List.length_cons] at hlength
  omega

theorem firstPiece_before_feed {c : Char} {piece : Piece} {n : Nat} (h : firstPiece c cs = (piece, n)) :
    firstPiece c (cs ++ '\n' :: rest) = (piece, n) ∧ (cs ++ '\n' :: rest).take n = cs.take n ∧
      (cs ++ '\n' :: rest).drop n = cs.drop n ++ '\n' :: rest := by
  have hle := firstPiece_le c cs
  rw [h] at hle
  exact ⟨(firstPiece_feed cs rest c).trans h, List.take_append_of_le_length hle, List.drop_append_of_le_length hle⟩

/-- A text is read up to a line feed, and from there on. -/
theorem tokensFrom_feed (p : Position) : tokensFrom p (cs ++ '\n' :: rest) = match tokensFrom p cs with
    | .error e => .error e
    | .ok ls => (tokensFrom (p.after (cs ++ ['\n'])) rest).map (ls ++ ·) := by
  have hplace : ∀ (p : Position) (c : Char) (cs : List Char) (n : Nat),
      (p.after (c :: cs.take n)).after (cs.drop n ++ ['\n']) = p.after (c :: cs ++ ['\n']) := by
    intro p c cs n
    rw [← Position.after_append, ← List.append_assoc, List.cons_append, List.take_append_drop]
  fun_induction tokensFrom p cs with
  | case1 p =>
    have hread : tokensFrom p ('\n' :: rest) = tokensFrom (p.after ['\n']) rest :=
      tokensFrom_gap p (n := 0) rfl
    rw [List.nil_append, hread]
    show _ = (tokensFrom (p.after ['\n']) rest).map ([] ++ ·)
    cases tokensFrom (p.after ['\n']) rest <;> rfl
  | case2 p c cs n taken next hpiece ih =>
    obtain ⟨hpiece, htake, hdrop⟩ := firstPiece_before_feed cs rest hpiece
    rw [List.cons_append, tokensFrom_gap p hpiece, htake, hdrop, ih, hplace, List.cons_append]
  | case3 p c cs n taken next span t hpiece ih =>
    obtain ⟨hpiece, htake, hdrop⟩ := firstPiece_before_feed cs rest hpiece
    rw [List.cons_append, tokensFrom_token p hpiece, htake, hdrop, ih, hplace, List.cons_append]
    dsimp only [span, next]
    rw [offset_sub]
    cases tokensFrom (p.after taken) (cs.drop n) with
    | error e => rfl
    | ok ls =>
      dsimp only [Except.map]
      cases tokensFrom (p.after (c :: (cs ++ ['\n']))) rest <;> rfl
  | case4 p c cs n taken next span hpiece =>
    obtain ⟨hpiece, htake, hdrop⟩ := firstPiece_before_feed cs rest hpiece
    rw [List.cons_append, tokensFrom_junk p hpiece, htake]
    dsimp only [span, next]
    rw [offset_sub]

end Feed

/-- The texts that a reading is made of, those of its tokens or of its error, have no line feed. -/
theorem feed_notMem_text {c : Char} {cs : List Char} {piece : Piece} {n : Nat} (h : firstPiece c cs = (piece, n))
    (hpiece : piece ≠ .gap) : '\n' ∉ c :: cs.take n := by
  have htail := feed_notMem_take cs c
  rw [h] at htail
  intro hmem
  rcases List.mem_cons.1 hmem with rfl | hmem
  · have hfeed : firstPiece '\n' cs = (.gap, 0) := rfl
    rw [hfeed] at h
    exact hpiece (Prod.mk.inj h).1.symm
  · exact htail hmem

/-- Neither a token nor an error has a line feed in its text. -/
theorem feed_notMem_tokensFrom (p : Position) (cs : List Char) : match tokensFrom p cs with
    | .ok ls => ∀ l ∈ ls, '\n' ∉ l.text.toList
    | .error e => '\n' ∉ e.text.toList := by
  fun_induction tokensFrom p cs with
  | case1 p => simp
  | case2 p c cs n taken next hpiece ih => exact ih
  | case3 p c cs n taken next span t hpiece ih =>
    have htext := feed_notMem_text hpiece nofun
    cases hrest : tokensFrom next (cs.drop n) with
    | error e =>
      rw [hrest] at ih
      exact ih
    | ok ls =>
      rw [hrest] at ih
      refine List.forall_mem_cons.2 ⟨?_, ih⟩
      rwa [String.toList_ofList]
  | case4 p c cs n taken next span hpiece =>
    have htext := feed_notMem_text hpiece nofun
    show '\n' ∉ (String.ofList taken).toList
    rwa [String.toList_ofList]

end Scan

/-! ## Lines -/

/-- The place behind a text and a line feed is at the start of a line. -/
theorem Position.after_feed (w : List Char) :
    Position.first.after (w ++ ['\n']) = Position.first.moved (byteLength w + 1) (w.count '\n' + 1) := by
  rw [after_first, lastLine_concat, byteLength_append, List.count_append, moved, first]
  simp only [mk.injEq]
  refine ⟨?_, ?_, rfl⟩
  · rw [Nat.zero_add]
    rfl
  · rw [Nat.add_comm 1]
    rfl

/-- A lexeme as it stands when `above` and a line feed come before its text. -/
def Lexeme.below (above : String) (l : Lexeme) : Lexeme :=
  l.moved (byteLength above.toList + 1) (above.toList.count '\n' + 1)

/-- An error as it stands when `above` and a line feed come before its text. -/
def LexError.below (above : String) (e : LexError) : LexError :=
  e.moved (byteLength above.toList + 1) (above.toList.count '\n' + 1)

/-- Two texts with a line feed between them are read apart. -/
theorem tokenize_feed (a b : String) : tokenize (a ++ "\n" ++ b) = match tokenize a with
    | .error e => .error e
    | .ok ls => match tokenize b with
      | .error e => .error (e.below a)
      | .ok ls' => .ok (ls ++ ls'.map (·.below a)) := by
  have htext : (a ++ "\n" ++ b).toList = a.toList ++ '\n' :: b.toList := by simp
  unfold tokenize
  rw [htext, Scan.tokensFrom_feed, Position.after_feed, Scan.tokensFrom_moved]
  cases Scan.tokensFrom .first a.toList with
  | error e => rfl
  | ok ls =>
    dsimp only
    cases Scan.tokensFrom .first b.toList <;> rfl

/-- Reading goes line by line. An error of what is before a line feed is the error of the whole text;
if there is none, what is behind the line feed is read by itself, its places moved by what is above.
No piece of a text, be it a token, a comment or an error, runs over a line feed; so what a line holds
changes nothing in the tokens above it, and moves those below. -/
theorem tokenize_by_lines (a b : String) :
    (∀ e, tokenize a = .error e → tokenize (a ++ "\n" ++ b) = .error e) ∧
    (∀ ls, tokenize a = .ok ls → tokenize (a ++ "\n" ++ b) = match tokenize b with
      | .error e => .error (e.below a)
      | .ok ls' => .ok (ls ++ ls'.map (·.below a))) ∧
    (∀ (c : Char) (cs : List Char), c ≠ '\n' → '\n' ∉ c :: cs.take (Scan.firstPiece c cs).2) ∧
    (∀ ls, tokenize a = .ok ls → ∀ l ∈ ls, '\n' ∉ l.text.toList) ∧
    (∀ e, tokenize a = .error e → '\n' ∉ e.text.toList) ∧
    ∀ line above middle below, tokenize a = .ok above → tokenize line = .ok middle → tokenize b = .ok below →
      tokenize (a ++ "\n" ++ line ++ "\n" ++ b) =
        .ok (above ++ middle.map (·.below a) ++ below.map (·.below (a ++ "\n" ++ line))) := by
  have htexts := Scan.feed_notMem_tokensFrom .first a.toList
  refine ⟨fun e he => ?_, fun ls hls => ?_, fun c cs hc hmem => ?_, fun ls hls => ?_, fun e he => ?_,
    fun line above middle below habove hmiddle hbelow => ?_⟩
  · rw [tokenize_feed, he]
  · rw [tokenize_feed, hls]
  · rcases List.mem_cons.1 hmem with hfeed | hmem
    · exact hc hfeed.symm
    · exact Scan.feed_notMem_take cs c hmem
  · rw [tokenize] at hls
    rwa [hls] at htexts
  · rw [tokenize] at he
    rwa [he] at htexts
  · rw [tokenize_feed, tokenize_feed, habove, hmiddle, hbelow]

/-- A literal that a backslash leaves open is not closed by the next line, and an arrow is not put together
from two lines; a comment ends with its line, and the name below it keeps its column. -/
theorem reading_across_lines :
    (∃ e, tokenize "a \"b\\" = .error e ∧ tokenize ("a \"b\\" ++ "\n" ++ "n\"") = .error e) ∧
    (∃ ls, tokenize "x // é" = .ok ls ∧ tokenize ("x // é" ++ "\n" ++ " y -") = .error ⟨'-', "-", ⟨11, 1, 2, 4⟩⟩) ∧
    tokenize ("x // é" ++ "\n" ++ "1" ++ "\n" ++ " y") = .ok
      [⟨.name "x", "x", ⟨0, 1, 1, 1⟩⟩, ⟨.integer 1, "1", ⟨8, 1, 2, 1⟩⟩, ⟨.name "y", "y", ⟨11, 1, 3, 2⟩⟩] := by
  have hopen : tokenize "a \"b\\" = .error ⟨'"', "\"b\\", ⟨2, 3, 1, 3⟩⟩ := by cbv
  have hcomment : tokenize "x // é" = .ok [⟨.name "x", "x", ⟨0, 1, 1, 1⟩⟩] := by cbv
  have hdash : tokenize " y -" = .error ⟨'-', "-", ⟨3, 1, 1, 4⟩⟩ := by cbv
  have hinteger : tokenize "1" = .ok [⟨.integer 1, "1", ⟨0, 1, 1, 1⟩⟩] := by cbv
  have hname : tokenize " y" = .ok [⟨.name "y", "y", ⟨1, 1, 1, 2⟩⟩] := by cbv
  refine ⟨⟨_, hopen, (tokenize_by_lines _ _).1 _ hopen⟩, ⟨_, hcomment, ?_⟩, ?_⟩
  · rw [(tokenize_by_lines _ _).2.1 _ hcomment, hdash]
    decide
  · obtain ⟨-, -, -, -, -, hlines⟩ := tokenize_by_lines "x // é" " y"
    exact (hlines _ _ _ _ hcomment hinteger hname).trans (by decide)

end Parley
