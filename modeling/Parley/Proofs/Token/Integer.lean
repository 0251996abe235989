/-
Integers. A run of digits is one piece of a text, whatever its length, and its value decides what it
is: the integer of that value, or, from 2^63 on, nothing at all. What follows is read as it is when it
stands alone, its places moved on.
-/
import Parley.Proofs.Token.Line
import Parley.Schema.Print

namespace Parley

/-! ## Texts in front -/

/-- A place when some characters are put in front of the first line. -/
def Position.behind (front : List Char) (p : Position) : Position :=
  ⟨p.offset + byteLength front, p.line, if p.line = 1 then p.column + front.length else p.column⟩

def Span.behind (front : List Char) (s : Span) : Span :=
  { s with offset := s.offset + byteLength front, column := if s.line = 1 then s.column + front.length else s.column }

def Lexeme.behind (front : List Char) (l : Lexeme) : Lexeme := { l with span := l.span.behind front }

def LexError.behind (front : List Char) (e : LexError) : LexError := { e with span := e.span.behind front }

theorem Position.one_le_line_advance (p : Position) (c : Char) (hp : 1 ≤ p.line) : 1 ≤ (p.advance c).line := by
  unfold advance
  split
  · exact Nat.le_add_left 1 p.line
  · exact hp

theorem Position.advance_behind {front : List Char} {p : Position} (hp : 1 ≤ p.line) (c : Char) :
    (p.behind front).advance c = (p.advance c).behind front := by
  unfold advance behind
  split
  · -- the next line is not the first
    have hline : p.line + 1 ≠ 1 := by omega
    simp only [if_neg hline, Nat.add_right_comm]
  · simp only [mk.injEq, true_and, Nat.add_right_comm]
    split <;> omega

theorem Position.after_behind {front : List Char} {p : Position} (hp : 1 ≤ p.line) (cs : List Char) :
    (p.behind front).after cs = (p.after cs).behind front := by
  induction cs generalizing p with
  | nil => rfl
  | cons c cs ih => rw [after_cons, advance_behind hp, ih (p.one_le_line_advance c hp), after_cons]

/-- The place behind some characters of the first line. -/
theorem Position.first_behind {front : List Char} (h : '\n' ∉ front) :
    Position.first.behind front = Position.first.after front := by
  have hline : lastLine front = front := by
    have hall : ∀ c ∈ front.reverse, decide (c ≠ '\n') = true := by
      intro c hc
      rw [decide_eq_true_eq]
      rintro rfl
      exact h (List.mem_reverse.1 hc)
    rw [lastLine, List.takeWhile_eq_self_iff.2 hall, List.reverse_reverse]
  rw [after_first, hline, List.count_eq_zero_of_not_mem h, behind, first, if_pos rfl, Nat.zero_add, Nat.add_comm 1]

namespace Scan

/-- A text behind some characters of its first line is read as it is, with its places moved. -/
theorem tokensFrom_behind {front : List Char} (h : '\n' ∉ front) (cs : List Char) :
    tokensFrom (Position.first.after front) cs = match tokensFrom .first cs with
      | .error e => .error (e.behind front)
      | .ok ls => .ok (ls.map (·.behind front)) := by
  rw [← Position.first_behind h]
  exact tokensFrom_map (·.behind front) (·.behind front) (fun _ _ => rfl) .first
    (fun w => Position.after_behind (Nat.le_refl 1) w) cs

/-! ## Digits -/

theorem feed_notMem_digits {ds : List Char} (h : ∀ d ∈ ds, d.isDigit = true) : '\n' ∉ ds := by
  intro hmem
  cases h '\n' hmem

section Digits

variable {c : Char} {w rest : List Char} (digit : c.isDigit = true) (digits : ∀ d ∈ w, d.isDigit = true)
  (ends : ∀ d ∈ rest.head?, d.isDigit = false)

include digit digits ends

theorem tokensFrom_digits (fits : decimal (c :: w) ≤ maxInteger) :
    tokensFrom .first (c :: w ++ rest) = match tokensFrom .first rest with
      | .error e => .error (e.behind (c :: w))
      | .ok ls => .ok (
          ⟨.integer (Int64.ofNat (decimal (c :: w))), String.ofList (c :: w), ⟨0, byteLength (c :: w), 1, 1⟩⟩ ::
          ls.map (·.behind (c :: w))) := by
  have hpiece := firstPiece_number digit digits ends
  rw [if_pos fits] at hpiece
  have hfeed : '\n' ∉ c :: w := feed_notMem_digits (List.forall_mem_cons.2 ⟨digit, digits⟩)
  rw [List.cons_append, tokensFrom_token _ hpiece, List.take_left, List.drop_left, tokensFrom_behind hfeed]
  cases tokensFrom .first rest <;> rfl

theorem tokensFrom_overflow (exceeds : maxInteger < decimal (c :: w)) : tokensFrom .first (c :: w ++ rest) =
    .error ⟨c, String.ofList (c :: w), ⟨0, byteLength (c :: w), 1, 1⟩⟩ := by
  have hpiece := firstPiece_number digit digits ends
  rw [if_neg (Nat.not_le.2 exceeds)] at hpiece
  rw [List.cons_append, tokensFrom_junk _ hpiece, List.take_left]
  rfl

end Digits

end Scan

/-- The integer that a text can hold of a number is that number. -/
theorem toInt_ofNat_of_le {n : Nat} (h : n ≤ Scan.maxInteger) : (Int64.ofNat n).toInt = n := by
  apply Int64.toInt_ofNat_of_lt
  rw [Scan.maxInteger] at h
  omega

/-- Integers are read exactly. Digits, with as many zeros in front as there may be, are the integer of their value
up to 2^63 - 1, and what follows is read as it is when it stands alone; from 2^63 on the digits are rejected,
all of them. Every integer that is not negative is read back from the text it is printed as. -/
theorem integers_read_exactly :
    (∀ digits rest : String, digits ≠ "" → (∀ c ∈ digits.toList, c.isDigit = true) →
      (∀ c ∈ rest.toList.head?, c.isDigit = false) →
      let number := Nat.ofDigitChars 10 digits.toList 0
      (number ≤ 2 ^ 63 - 1 → ∃ value : Int64, value.toInt = number ∧
        (∀ ls, tokenize rest = .ok ls → tokenize (digits ++ rest) = .ok (
          ⟨.integer value, digits, ⟨0, byteLength digits.toList, 1, 1⟩⟩ :: ls.map (·.behind digits.toList))) ∧
        ∀ e, tokenize rest = .error e → tokenize (digits ++ rest) = .error (e.behind digits.toList)) ∧
      (2 ^ 63 - 1 < number → ∃ e, tokenize (digits ++ rest) = .error e ∧ e.text = digits ∧ e.span.offset = 0)) ∧
    ∀ value : Int64, 0 ≤ value.toInt →
      let text := (Expr.integer value).print
      tokenize text = .ok [⟨.integer value, text, ⟨0, byteLength text.toList, 1, 1⟩⟩] := by
  refine ⟨fun digits rest hne hdigits hrest => ?_, fun value hvalue => ?_⟩
  · obtain ⟨c, w, hchars⟩ := List.exists_cons_of_ne_nil (mt String.toList_eq_nil_iff.1 hne)
    obtain ⟨hdigit, hdigits⟩ := List.forall_mem_cons.1 (hchars ▸ hdigits)
    have htext : (digits ++ rest).toList = c :: w ++ rest.toList := by rw [String.toList_append, hchars]
    have hspelling : String.ofList (c :: w) = digits := by rw [← hchars, String.ofList_toList]
    dsimp only
    rw [hchars, ← Scan.decimal_eq_ofDigitChars, tokenize, tokenize, htext]
    refine ⟨fun hle => ?_, fun hlt => ?_⟩
    · rw [Scan.tokensFrom_digits hdigit hdigits hrest hle, hspelling]
      exact ⟨_, toInt_ofNat_of_le hle, fun ls hls => by rw [hls], fun e he => by rw [he]⟩
    · exact ⟨_, Scan.tokensFrom_overflow hdigit hdigits hrest hlt, hspelling, rfl⟩
  · obtain ⟨n, c, w, hn, hchars, hdigits, hdecimal⟩ := Scan.digits_of_integer hvalue
    obtain ⟨hdigit, hdigits⟩ := List.forall_mem_cons.1 hdigits
    have hfits : Scan.decimal (c :: w) ≤ Scan.maxInteger := by
      have := value.toInt_lt
      rw [hdecimal, Scan.maxInteger]
      omega
    have hsame : Int64.ofNat (Scan.decimal (c :: w)) = value := by
      rw [hdecimal, ← Int64.ofInt_eq_ofNat, ← hn, Int64.ofInt_toInt]
    have hends : ∀ d ∈ ([] : List Char).head?, d.isDigit = false := fun d hd => by cases hd
    have hread := Scan.tokensFrom_digits hdigit hdigits hends hfits
    have hspelling : String.ofList (c :: w) = toString value.toInt := by rw [← hchars, String.ofList_toList]
    dsimp only
    rw [Expr.print, tokenize, hchars]
    rw [List.append_nil, Scan.tokensFrom, hsame, hspelling] at hread
    exact hread

/-- The largest integer with zeros in front, before a name and another line, and the number after it. -/
theorem integers_around_largest :
    (∃ value : Int64, value.toInt = 9223372036854775807 ∧ tokenize ("009223372036854775807" ++ "x\n7") = .ok
      [⟨.integer value, "009223372036854775807", ⟨0, 21, 1, 1⟩⟩, ⟨.name "x", "x", ⟨21, 1, 1, 22⟩⟩,
        ⟨.integer 7, "7", ⟨23, 1, 2, 1⟩⟩]) ∧
    (∃ e, tokenize ("009223372036854775808" ++ "x\n7") = .error e ∧ e.text = "009223372036854775808" ∧
      e.span.offset = 0) ∧
    tokenize "9223372036854775807" = .ok [⟨.integer 9223372036854775807, "9223372036854775807", ⟨0, 19, 1, 1⟩⟩] := by
  obtain ⟨hdigits, hprinted⟩ := integers_read_exactly
  have hrest : ∀ c ∈ "x\n7".toList.head?, c.isDigit = false := by simp
  have hread : tokenize "x\n7" = .ok [⟨.name "x", "x", ⟨0, 1, 1, 1⟩⟩, ⟨.integer 7, "7", ⟨2, 1, 2, 1⟩⟩] := by cbv
  refine ⟨?_, ?_, hprinted 9223372036854775807 (by simp)⟩
  · have hnumber : Nat.ofDigitChars 10 "009223372036854775807".toList 0 = 9223372036854775807 := by decide
    obtain ⟨hfits, -⟩ := hdigits "009223372036854775807" _ (by decide) (by simp) hrest
    obtain ⟨value, hvalue, hok, -⟩ := hfits (Nat.le_of_eq hnumber)
    exact ⟨value, by rw [hvalue, hnumber]; rfl, hok _ hread⟩
  · have hnumber : Nat.ofDigitChars 10 "009223372036854775808".toList 0 = 9223372036854775808 := by decide
    obtain ⟨-, hexceeds⟩ := hdigits "009223372036854775808" _ (by decide) (by simp) hrest
    exact hexceeds (Nat.lt_of_lt_of_eq (by decide) hnumber.symm)

end Parley
