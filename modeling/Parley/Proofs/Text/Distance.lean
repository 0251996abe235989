/-
The edit distance is what its name says: the least number of slips of the pen, each of which puts in,
leaves out or exchanges a single character, that lead from one word to the other. A way with so many
slips is read off the rows; and as one more slip makes the distance greater by one at most, there is
none with fewer.
-/
import Parley.Text.Distance
import Mathlib.Order.Bounds.Basic
import Mathlib.Order.MinMax

namespace Parley.Distance

/-- One character is put in, left out or exchanged for another, at the front or further behind. -/
inductive Slip : List Char → List Char → Prop
  | insert (c : Char) (cs : List Char) : Slip cs (c :: cs)
  | delete (c : Char) (cs : List Char) : Slip (c :: cs) cs
  | substitute {c d : Char} (cs : List Char) (differ : c ≠ d) : Slip (c :: cs) (d :: cs)
  | behind (c : Char) {cs ds : List Char} (slip : Slip cs ds) : Slip (c :: cs) (c :: ds)

/-- One word becomes another by so many slips, one after the other. -/
inductive Slips : Nat → List Char → List Char → Prop
  | none (cs : List Char) : Slips 0 cs cs
  | more {n : Nat} {cs ds es : List Char} (before : Slips n cs ds) (last : Slip ds es) : Slips (n + 1) cs es

/-- The distance of two lists of characters. -/
def ofChars (xs ys : List Char) : Nat := (row ys xs).headD 0

/-! ## The rows -/

theorem row_nil (xs : List Char) : row [] xs = [xs.length] := by
  induction xs with
  | nil => rfl
  | cons x xs ih =>
    show nextRow x [] (row [] xs) = _
    rw [ih]
    rfl

/-- Behind its first distance a row is the row of the shorter word. -/
theorem row_cons (y : Char) (ys xs : List Char) : row (y :: ys) xs = ofChars xs (y :: ys) :: row ys xs := by
  induction xs with
  | nil => rfl
  | cons x xs ih =>
    have hrow : row (y :: ys) (x :: xs) = nextRow x (y :: ys) (row (y :: ys) xs) := rfl
    unfold ofChars
    rw [hrow, ih]
    rfl

variable (x y : Char) (xs ys : List Char)

theorem ofChars_nil_left : ofChars [] ys = ys.length := by
  cases ys <;> rfl

theorem ofChars_nil_right : ofChars xs [] = xs.length := by
  rw [ofChars, row_nil]
  rfl

theorem ofChars_cons_cons : ofChars (x :: xs) (y :: ys) =
    min (min (ofChars xs (y :: ys) + 1) (ofChars (x :: xs) ys + 1)) (ofChars xs ys + if x = y then 0 else 1) := by
  have hrow : row (y :: ys) (x :: xs) = nextRow x (y :: ys) (row (y :: ys) xs) := rfl
  rw [ofChars, hrow, row_cons]
  rfl

/-! ## As many slips as the distance -/

section Slips

variable {x y xs ys} {n : Nat} {zs : List Char}

theorem Slips.after (first : Slip xs ys) (rest : Slips n ys zs) : Slips (n + 1) xs zs := by
  induction rest with
  | none ys => exact .more (.none xs) first
  | more _ last ih => exact .more (ih first) last

theorem Slips.behind (c : Char) (h : Slips n xs ys) : Slips n (c :: xs) (c :: ys) := by
  induction h with
  | none cs => exact .none _
  | more _ last ih => exact .more ih (.behind c last)

theorem slips_ofChars (xs ys : List Char) : Slips (ofChars xs ys) xs ys := by
  induction xs generalizing ys with
  | nil =>
    rw [ofChars_nil_left]
    induction ys with
    | nil => exact .none []
    | cons y ys ih => exact .more ih (.insert y ys)
  | cons x xs ihx =>
    induction ys with
    | nil =>
      have hrest := ihx []
      rw [ofChars_nil_right] at hrest ⊢
      exact hrest.after (.delete x xs)
    | cons y ys ihy =>
      have hdelete : Slips (ofChars xs (y :: ys) + 1) (x :: xs) (y :: ys) := (ihx (y :: ys)).after (.delete x xs)
      have hinsert : Slips (ofChars (x :: xs) ys + 1) (x :: xs) (y :: ys) := .more ihy (.insert y ys)
      have hexchange : Slips (ofChars xs ys + if x = y then 0 else 1) (x :: xs) (y :: ys) := by
        split
        · subst y
          exact (ihx ys).behind x
        · exact .more ((ihx ys).behind x) (.substitute ys ‹_›)
      rw [ofChars_cons_cons]
      -- the least of the three is one of them
      rcases min_choice (min (ofChars xs (y :: ys) + 1) (ofChars (x :: xs) ys + 1)) (ofChars xs ys + if x = y then 0 else 1)
        with h | h <;> rw [h]
      · rcases min_choice (ofChars xs (y :: ys) + 1) (ofChars (x :: xs) ys + 1) with h | h <;> rw [h]
        · exact hdelete
        · exact hinsert
      · exact hexchange

/-! ## No fewer slips -/

theorem ofChars_self (xs : List Char) : ofChars xs xs = 0 := by
  induction xs with
  | nil => rfl
  | cons x xs ih =>
    rw [ofChars_cons_cons, ih, if_pos rfl]
    exact Nat.min_zero _

theorem ofChars_cons_le (x : Char) (xs ys : List Char) : ofChars (x :: xs) ys ≤ ofChars xs ys + 1 := by
  cases ys with
  | nil => rw [ofChars_nil_right, ofChars_nil_right, List.length_cons]
  | cons y ys =>
    rw [ofChars_cons_cons]
    omega

/-- A slip makes the distance greater by one at most. -/
theorem ofChars_slip_le (h : Slip ys zs) (xs : List Char) : ofChars xs zs ≤ ofChars xs ys + 1 := by
  induction h generalizing xs with
  | insert c cs =>
    cases xs with
    | nil => rw [ofChars_nil_left, ofChars_nil_left, List.length_cons]
    | cons x xs =>
      rw [ofChars_cons_cons]
      omega
  | delete c cs =>
    induction xs with
    | nil =>
      rw [ofChars_nil_left, ofChars_nil_left, List.length_cons]
      omega
    | cons x xs ih =>
      have hcons := ofChars_cons_le x xs cs
      rw [ofChars_cons_cons]
      split <;> omega
  | @substitute c d cs differ =>
    induction xs with
    | nil =>
      rw [ofChars_nil_left, ofChars_nil_left, List.length_cons, List.length_cons]
      omega
    | cons x xs ih =>
      rw [ofChars_cons_cons, ofChars_cons_cons]
      split <;> split <;> omega
  | @behind c cs ds slip ih =>
    induction xs with
    | nil =>
      have := ih []
      simp only [ofChars_nil_left, List.length_cons] at this ⊢
      omega
    | cons x xs ihx =>
      have hboth := ih xs
      have hleft := ih (x :: xs)
      rw [ofChars_cons_cons, ofChars_cons_cons]
      split <;> omega

theorem ofChars_le_of_slips (h : Slips n xs ys) : ofChars xs ys ≤ n := by
  induction h with
  | none cs => rw [ofChars_self]
  | more _ last ih => exact (ofChars_slip_le last _).trans (Nat.add_le_add_right ih 1)

end Slips

/-- The distance of two words is the least number of slips that lead from one to the other. -/
theorem isLeast_between (a b : String) : IsLeast {n | Slips n a.toList b.toList} (between a b) :=
  ⟨slips_ofChars a.toList b.toList, fun _ h => ofChars_le_of_slips h⟩

theorem between_le_iff {a b : String} {n : Nat} : between a b ≤ n ↔ ∃ m ≤ n, Slips m a.toList b.toList :=
  ⟨fun h => ⟨_, h, (isLeast_between a b).1⟩, fun ⟨_, hm, h⟩ => ((isLeast_between a b).2 h).trans hm⟩

theorem Slips.slip {xs ys : List Char} {n : Nat} (h : Slips n xs ys) (hn : n ≤ 1) (hne : ys ≠ xs) : Slip xs ys := by
  cases h with
  | none => exact absurd rfl hne
  | more before last =>
    cases before with
    | none => exact last
    | more => omega

/-- Different words are at most one apart if a single slip leads from one to the other. -/
theorem between_le_one_iff {a b : String} (h : b ≠ a) : between a b ≤ 1 ↔ Slip a.toList b.toList := by
  rw [between_le_iff]
  constructor
  · rintro ⟨m, hm, hslips⟩
    exact hslips.slip hm fun heq => h (String.toList_inj.1 heq)
  · exact fun h => ⟨1, Nat.le_refl 1, .more (.none _) h⟩

end Parley.Distance
