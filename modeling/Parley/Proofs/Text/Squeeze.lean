/-
White space squeezed to spaces. A run of white space becomes one space, whether a text is cut into words
and these are joined or it is read from left to right; what comes after a character that is no white
space is squeezed by itself. In the writing of a literal just the white space is squeezed that stands
for itself there, so the result is the writing of another text.
-/
import Parley.Proofs.Token.Spelling
import Parley.Text.Lines

namespace Parley

namespace Lines

/-- A text with one space for every run of characters of a class. The run that goes on at its start, if
there is one, has its space before it. -/
def squeezeFrom (p : Char → Bool) : Bool → List Char → List Char
  | _, [] => []
  | inside, c :: cs =>
    if p c then if inside then squeezeFrom p true cs else ' ' :: squeezeFrom p true cs
    else c :: squeezeFrom p false cs

section Squeezing

variable {p : Char → Bool} {inside : Bool} {c : Char} {cs : List Char}

theorem squeezeFrom_inside (h : p c = true) (cs : List Char) : squeezeFrom p true (c :: cs) = squeezeFrom p true cs := by
  rw [squeezeFrom, if_pos h, if_pos rfl]

theorem squeezeFrom_outside (h : p c = true) (cs : List Char) : squeezeFrom p false (c :: cs) = ' ' :: squeezeFrom p true cs := by
  rw [squeezeFrom, if_pos h, if_neg Bool.false_ne_true]

theorem squeezeFrom_cons (h : p c = false) (inside : Bool) (cs : List Char) :
    squeezeFrom p inside (c :: cs) = c :: squeezeFrom p false cs := by
  rw [squeezeFrom, if_neg (by simp [h])]

/-- Characters outside the class stay, and what comes after them is squeezed by itself. -/
theorem squeezeFrom_append {w : List Char} (hne : w ≠ []) (hw : ∀ d ∈ w, p d = false) (inside : Bool) (rest : List Char) :
    squeezeFrom p inside (w ++ rest) = w ++ squeezeFrom p false rest := by
  induction w generalizing inside with
  | nil => exact absurd rfl hne
  | cons d w ih =>
    rw [List.forall_mem_cons] at hw
    rw [List.cons_append, squeezeFrom_cons hw.1, List.cons_append]
    rcases eq_or_ne w [] with rfl | hne
    · rfl
    · rw [ih hne hw.2]

end Squeezing

/-! ## Words -/

theorem wordsFrom_ne_nil {cs : List Char} : ∀ word : List Char, (word ≠ [] ∨ ∃ c ∈ cs, CharClass.isBlank c = false) →
    wordsFrom word cs ≠ [] := by
  induction cs with
  | nil =>
    rintro word (h | ⟨c, hc, -⟩)
    · simp [wordsFrom, h]
    · exact absurd hc List.not_mem_nil
  | cons c cs ih =>
    intro word h
    rw [wordsFrom]
    by_cases hblank : CharClass.isBlank c = true
    · rw [if_pos hblank]
      split
      · rename_i hempty
        refine ih [] (.inr ?_)
        obtain hword | ⟨d, hd, hnot⟩ := h
        · exact absurd (List.isEmpty_iff.1 hempty) hword
        · rcases List.mem_cons.1 hd with rfl | hd
          · exact absurd hblank (by simp [hnot])
          · exact ⟨d, hd, hnot⟩
      · exact List.cons_ne_nil _ _
    · rw [if_neg hblank]
      exact ih _ (.inl (by simp))

/-- Words with a space between two of them are the text squeezed, if it does not end in white space. -/
theorem intercalate_wordsFrom {cs : List Char} : ∀ word : List Char, (∀ c ∈ cs.getLast?, CharClass.isBlank c = false) →
    [' '].intercalate (wordsFrom word cs) = word ++ squeezeFrom CharClass.isBlank word.isEmpty cs := by
  induction cs with
  | nil =>
    intro word _
    cases word <;> simp [wordsFrom, squeezeFrom]
  | cons c cs ih =>
    intro word hlast
    have hlast' : ∀ d ∈ cs.getLast?, CharClass.isBlank d = false := by
      cases cs with
      | nil => exact nofun
      | cons d cs => rwa [List.getLast?_cons_cons] at hlast
    rw [wordsFrom]
    cases hblank : CharClass.isBlank c with
    | false =>
      have hword : (word ++ [c]).isEmpty = false := by simp
      rw [if_neg Bool.false_ne_true, ih _ hlast', squeezeFrom_cons hblank, hword, List.append_assoc, List.singleton_append]
    | true =>
      rw [if_pos rfl]
      cases word with
      | nil =>
        rw [List.isEmpty_nil, if_pos rfl, ih _ hlast', squeezeFrom_inside hblank]
        rfl
      | cons d word =>
        rw [List.isEmpty_cons, if_neg Bool.false_ne_true, squeezeFrom_outside hblank]
        -- the text goes on, since it does not end in white space
        have hmore : ∃ e ∈ cs, CharClass.isBlank e = false := by
          cases hcs : cs.getLast? with
          | none =>
            rw [List.getLast?_eq_none_iff.1 hcs] at hlast
            exact absurd (hlast c rfl) (by simp [hblank])
          | some e => exact ⟨e, List.mem_of_getLast? hcs, hlast' e hcs⟩
        obtain ⟨first, words, hwords⟩ := List.exists_cons_of_ne_nil (wordsFrom_ne_nil [] (.inr hmore))
        have hrest := ih [] hlast'
        rw [hwords] at hrest ⊢
        rw [List.intercalate_cons_cons, hrest]
        simp

theorem collapse_eq {cs : List Char} (h : ∀ c ∈ cs.getLast?, CharClass.isBlank c = false) :
    collapse cs = squeezeFrom CharClass.isBlank true cs := intercalate_wordsFrom [] h

end Lines

/-! ## Literals -/

namespace Quoted

open Lines Scan

/-- White space that stands for itself in a literal. -/
def isLoose (c : Char) : Bool := CharClass.isBlank c && c != '\n' && c != '\t'

/-- A text with one space for every run of white space but line feeds and tabs. -/
def squeezed (text : String) : String := String.ofList (squeezeFrom isLoose false text.toList)

theorem isLoose_iff {c : Char} : isLoose c = true ↔ CharClass.isBlank c = true ∧ c ≠ '\n' ∧ c ≠ '\t' := by
  simp [isLoose, and_assoc]

/-- Loose white space is written as it is. -/
theorem escape_of_loose {c : Char} (h : isLoose c = true) : escape c = [c] := by
  obtain ⟨hblank, hfeed, htab⟩ := isLoose_iff.1 h
  have hne : ∀ d, CharClass.isBlank d = false → c ≠ d := by
    rintro d hd rfl
    rw [hblank] at hd
    cases hd
  rw [escape, if_neg hfeed, if_neg htab, if_neg (hne '\\' (by decide)), if_neg (hne '\x22' (by decide))]

/-- Every other character is written without white space. -/
theorem escape_of_not_loose {c : Char} (h : isLoose c = false) : escape c ≠ [] ∧ ∀ d ∈ escape c, CharClass.isBlank d = false := by
  have hpair : ∀ d, CharClass.isBlank d = false → ['\\', d] ≠ [] ∧ ∀ e ∈ ['\\', d], CharClass.isBlank e = false := by
    intro d hd
    refine ⟨List.cons_ne_nil _ _, ?_⟩
    rw [List.forall_mem_cons, List.forall_mem_singleton]
    exact ⟨by decide, hd⟩
  unfold escape
  split_ifs with hfeed htab
  · exact hpair 'n' (by decide)
  · exact hpair 't' (by decide)
  · exact hpair '\\' (by decide)
  · exact hpair '\x22' (by decide)
  · refine ⟨List.cons_ne_nil _ _, List.forall_mem_singleton.2 ?_⟩
    by_contra hblank
    rw [Bool.not_eq_false] at hblank
    rw [isLoose_iff.2 ⟨hblank, hfeed, htab⟩] at h
    cases h

/-- The inside of a literal, up to its closing mark, is squeezed to the inside of another. -/
theorem squeezeFrom_encode (inside : Bool) (cs rest : List Char) :
    squeezeFrom CharClass.isBlank inside (encode cs ++ '\x22' :: rest) =
      encode (squeezeFrom isLoose inside cs) ++ '\x22' :: squeezeFrom CharClass.isBlank false rest := by
  induction cs generalizing inside with
  | nil => exact squeezeFrom_cons (by decide) inside rest
  | cons c cs ih =>
    rw [encode_cons, List.append_assoc]
    cases hloose : isLoose c with
    | false =>
      obtain ⟨hne, hsolid⟩ := escape_of_not_loose hloose
      rw [squeezeFrom_append hne hsolid, ih, squeezeFrom_cons hloose, encode_cons, List.append_assoc]
    | true =>
      obtain ⟨hblank, -⟩ := isLoose_iff.1 hloose
      rw [escape_of_loose hloose, List.singleton_append]
      cases inside with
      | true => rw [squeezeFrom_inside hblank, squeezeFrom_inside hloose, ih]
      | false =>
        rw [squeezeFrom_outside hblank, squeezeFrom_outside hloose, ih, encode_cons]
        rfl

end Quoted

end Parley
