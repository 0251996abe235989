/-
The layout of a text: the stretches, tokens and gaps, that reading cuts it into. A cut is right if
every stretch is the first piece of the text from there on. A text is made of tokens exactly when
it has a right cut, and then the tokens stand where the cut puts them, one after the other.
-/
import Parley.Token.Scan
import Mathlib.Data.List.Pairwise

namespace Parley

def Symbol.chars : Symbol → List Char
  | openBrace => ['\x7b']
  | closeBrace => ['\x7d']
  | openParen => ['(']
  | closeParen => [')']
  | colon => [':']
  | comma => [',']
  | semicolon => [';']
  | dot => ['.']
  | arrow => ['-', '>']
  | equal => ['=', '=']
  | notEqual => ['!', '=']
  | atMost => ['<', '=']
  | atLeast => ['>', '=']
  | less => ['<']
  | greater => ['>']
  | and => ['&', '&']
  | or => ['|', '|']
  | not => ['!']

theorem Symbol.toList_spelling (mark : Symbol) : mark.spelling.toList = mark.chars := by
  cases mark <;> decide

theorem Symbol.length_spelling (mark : Symbol) : mark.spelling.length = mark.chars.length := by
  rw [← toList_spelling, String.length_toList]

theorem Symbol.chars_ne_nil (mark : Symbol) : mark.chars ≠ [] := by
  cases mark <;> decide

theorem byteLength_pos {cs : List Char} (h : cs ≠ []) : 0 < byteLength cs := by
  obtain ⟨c, cs, rfl⟩ := List.exists_cons_of_ne_nil h
  rw [byteLength_cons]
  exact Nat.add_pos_left c.utf8Size_pos _

namespace Scan

/-- A stretch of a text: a token, or a gap between tokens. -/
structure Stretch where
  token : Option Token
  text : List Char

namespace Stretch

/-- What a stretch is when it is read. -/
def piece (x : Stretch) : Piece := x.token.elim .gap .token

/-- A stretch is the first piece of the text that it starts. -/
def Stands (x : Stretch) (rest : List Char) : Prop :=
  ∃ c w, x.text = c :: w ∧ firstPiece c (w ++ rest) = (x.piece, w.length)

theorem Stands.text_ne_nil {x : Stretch} {rest : List Char} (h : x.Stands rest) : x.text ≠ [] := by
  obtain ⟨c, w, hx, -⟩ := h
  simp [hx]

end Stretch

def textOf (xs : List Stretch) : List Char := xs.flatMap (·.text)

@[simp] theorem textOf_nil : textOf [] = [] := rfl

@[simp] theorem textOf_cons (x : Stretch) (xs : List Stretch) : textOf (x :: xs) = x.text ++ textOf xs := rfl

@[simp] theorem textOf_append (xs ys : List Stretch) : textOf (xs ++ ys) = textOf xs ++ textOf ys :=
  List.flatMap_append

/-- Every stretch is read as it is, with `rest` after the last. -/
def Cut : List Stretch → List Char → Prop
  | [], _ => True
  | x :: xs, rest => x.Stands (textOf xs ++ rest) ∧ Cut xs rest

theorem cut_append {xs ys : List Stretch} {rest : List Char} :
    Cut (xs ++ ys) rest ↔ Cut xs (textOf ys ++ rest) ∧ Cut ys rest := by
  induction xs with
  | nil => simp [Cut]
  | cons x xs ih => simp only [List.cons_append, Cut, ih, textOf_append, List.append_assoc, and_assoc]

/-- The lexemes of stretches that start at a place. -/
def placed (p : Position) : List Stretch → List Lexeme
  | [] => []
  | x :: xs =>
    match x.token with
    | none => placed (p.after x.text) xs
    | some t => ⟨t, String.ofList x.text, Span.startingAt p (byteLength x.text)⟩ :: placed (p.after x.text) xs

/-- The tokens of a layout do not depend on its place. -/
theorem tokens_placed (p : Position) (xs : List Stretch) : (placed p xs).map (·.token) = xs.filterMap (·.token) := by
  induction xs generalizing p with
  | nil => rfl
  | cons x xs ih =>
    rcases x with ⟨_ | t, text⟩ <;> simp [placed, ih]

/-! ## Reading a layout -/

/-- A text with a right cut is read along it. -/
theorem tokensFrom_cut {xs : List Stretch} {rest : List Char} (h : Cut xs rest) (p : Position) :
    tokensFrom p (textOf xs ++ rest) = (tokensFrom (p.after (textOf xs)) rest).map (placed p xs ++ ·) := by
  induction xs generalizing p with
  | nil =>
    simp only [textOf_nil, List.nil_append, Position.after_nil, placed]
    cases tokensFrom p rest <;> rfl
  | cons x xs ih =>
    obtain ⟨⟨c, w, hx, hpiece⟩, hxs⟩ := h
    rcases x with ⟨token, text⟩
    obtain rfl : text = c :: w := hx
    have hlength : (p.after (c :: w)).offset - p.offset = byteLength (c :: w) := by
      rw [Position.offset_after, Nat.add_sub_cancel_left]
    rw [textOf_cons, List.append_assoc, List.cons_append, tokensFrom]
    simp only [hpiece, List.take_left, List.drop_left, ih hxs, hlength]
    cases token with
    | none => simp [Stretch.piece, placed]
    | some t =>
      simp only [Stretch.piece, Option.elim_some, placed, Position.after_append]
      cases tokensFrom _ rest <;> rfl

theorem insideLength_lt {cs : List Char} {n : Nat} (h : Quoted.insideLength cs = some n) : n < cs.length := by
  fun_induction Quoted.insideLength cs generalizing n with
  | case1 => cases h
  | case2 rest => cases h; exact Nat.zero_lt_succ _
  | case3 => cases h
  | case4 => cases h
  | case5 c rest hne ih =>
    simp only [Option.map_eq_some_iff] at h
    obtain ⟨m, hm, rfl⟩ := h
    have := ih hm
    simp only [List.length_cons]; omega
  | case6 c rest h₁ h₂ h₃ h₄ ih =>
    simp only [Option.map_eq_some_iff] at h
    obtain ⟨m, hm, rfl⟩ := h
    have := ih hm
    simp only [List.length_cons]; omega

theorem symbol?_chars {c : Char} {cs : List Char} {mark : Symbol} (h : symbol? c cs = some mark) :
    ∃ w, mark.chars = c :: w ∧ w <+: cs := by
  unfold symbol? at h
  split at h <;> cases h <;> exact ⟨_, rfl, by simp⟩

/-- A piece does not run past the end of the text. -/
theorem firstPiece_le (c : Char) (cs : List Char) : (firstPiece c cs).2 ≤ cs.length := by
  unfold firstPiece
  split
  · exact Nat.zero_le _
  split
  · exact (List.takeWhile_prefix _).length_le
  split
  · exact (List.takeWhile_prefix _).length_le
  split
  · exact (List.takeWhile_prefix _).length_le
  split
  · unfold stringPiece
    split
    · exact (List.takeWhile_prefix _).length_le
    · rename_i n hn
      have := insideLength_lt hn
      split <;> exact this
  · split
    · obtain ⟨w, hw, hprefix⟩ := symbol?_chars ‹_›
      rw [Symbol.length_spelling, hw]
      exact hprefix.length_le
    · exact Nat.zero_le _

/-- What reading takes from a text stands before the rest of it. -/
theorem stands_take {c : Char} {cs : List Char} {token : Option Token} {n : Nat}
    (h : firstPiece c cs = (token.elim .gap .token, n)) : Stretch.Stands ⟨token, c :: cs.take n⟩ (cs.drop n) := by
  have hle := firstPiece_le c cs
  rw [h] at hle
  refine ⟨c, cs.take n, rfl, ?_⟩
  rw [List.take_append_drop, h, List.length_take, Nat.min_eq_left hle]
  rfl

/-- A text of tokens has a right cut. -/
theorem cut_of_tokensFrom {p : Position} {ls : List Lexeme} : ∀ {cs : List Char}, tokensFrom p cs = .ok ls →
    ∃ xs, Cut xs [] ∧ textOf xs = cs ∧ placed p xs = ls
  | [], h => by
    rw [tokensFrom] at h
    cases h
    exact ⟨[], trivial, rfl, rfl⟩
  | c :: cs, h => by
    rw [tokensFrom] at h
    rcases hpiece : firstPiece c cs with ⟨piece, n⟩
    have hspan : (p.after (c :: cs.take n)).offset - p.offset = byteLength (c :: cs.take n) := by
      rw [Position.offset_after, Nat.add_sub_cancel_left]
    rw [hpiece] at h
    simp only [hspan] at h
    cases piece with
    | gap =>
      obtain ⟨xs, hcut, htext, rfl⟩ := cut_of_tokensFrom h
      refine ⟨⟨none, c :: cs.take n⟩ :: xs, ⟨?_, hcut⟩, by simp [htext], rfl⟩
      rw [List.append_nil, htext]
      exact stands_take hpiece
    | token t =>
      dsimp only at h
      rcases hrest : tokensFrom (p.after (c :: cs.take n)) (cs.drop n) with e | ls'
      · rw [hrest] at h; cases h
      · rw [hrest] at h; cases h
        obtain ⟨xs, hcut, htext, rfl⟩ := cut_of_tokensFrom hrest
        refine ⟨⟨some t, c :: cs.take n⟩ :: xs, ⟨?_, hcut⟩, by simp [htext], rfl⟩
        rw [List.append_nil, htext]
        exact stands_take hpiece
    | junk => cases h
termination_by cs => cs.length

/-- A text is made of tokens exactly when it has a right cut. -/
theorem tokenize_ok_iff {source : String} {ls : List Lexeme} :
    tokenize source = .ok ls ↔ ∃ xs, Cut xs [] ∧ textOf xs = source.toList ∧ placed .first xs = ls := by
  constructor
  · exact cut_of_tokensFrom
  · rintro ⟨xs, hcut, htext, rfl⟩
    have hread := tokensFrom_cut hcut .first
    rw [List.append_nil, htext, tokensFrom] at hread
    rw [tokenize, hread]
    exact congrArg Except.ok (List.append_nil _)

/-! ## Places -/

/-- Later lexemes start where earlier ones have stopped, inside the text. -/
theorem placed_places (p : Position) (xs : List Stretch) (h : ∀ x ∈ xs, x.text ≠ []) :
    (∀ l ∈ placed p xs, p.offset ≤ l.span.offset ∧ l.span.stop ≤ p.offset + byteLength (textOf xs) ∧ 0 < l.span.length) ∧
      (placed p xs).Pairwise fun l m => l.span.stop ≤ m.span.offset := by
  induction xs generalizing p with
  | nil => simp [placed]
  | cons x xs ih =>
    have hpos := byteLength_pos (h x List.mem_cons_self)
    obtain ⟨hin, hpair⟩ := ih (p.after x.text) fun y hy => h y (List.mem_cons_of_mem _ hy)
    have hin' : ∀ l ∈ placed (p.after x.text) xs, p.offset + byteLength x.text ≤ l.span.offset ∧
        l.span.stop ≤ p.offset + byteLength (textOf (x :: xs)) ∧ 0 < l.span.length := fun l hl => by
      have := hin l hl
      rw [Position.offset_after] at this
      rw [textOf_cons, byteLength_append]
      omega
    rcases x with ⟨_ | t, text⟩
    · exact ⟨fun l hl => ⟨by have := hin' l hl; omega, (hin' l hl).2⟩, hpair⟩
    · refine ⟨?_, List.pairwise_cons.2 ⟨fun m hm => (hin' m hm).1, hpair⟩⟩
      rintro l (_ | ⟨_, hl⟩)
      · refine ⟨Nat.le_refl _, ?_, hpos⟩
        rw [textOf_cons, byteLength_append]
        simp only [Span.stop, Span.startingAt]; omega
      · exact ⟨by have := hin' l hl; omega, (hin' l hl).2⟩

/-- The stretches of a right cut are not empty. -/
theorem Cut.text_ne_nil {xs : List Stretch} {rest : List Char} (h : Cut xs rest) : ∀ x ∈ xs, x.text ≠ [] := by
  induction xs with
  | nil => simp
  | cons x xs ih => simpa [h.1.text_ne_nil] using ih h.2

end Scan

end Parley
