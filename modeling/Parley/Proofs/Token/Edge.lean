/-
How far reading looks ahead. Whether a stretch of a text is read as it is depends on the first
character after it only, and not on which it is among those that may start a name; so a text keeps
its layout when a name in it is replaced by another.
-/
import Parley.Proofs.Token.Layout

namespace Parley.Scan

/-! ## Runs of characters -/

section Runs

variable {p : Char → Bool} {w rest : List Char}

theorem takeWhile_run (hw : ∀ c ∈ w, p c = true) (hrest : ∀ c ∈ rest.head?, p c = false) :
    (w ++ rest).takeWhile p = w := by
  rw [List.takeWhile_append_of_pos hw]
  rcases rest with _ | ⟨c, rest⟩
  · simp
  · rw [List.takeWhile_cons_of_neg (by simp [hrest c rfl]), List.append_nil]

theorem run_of_length (h : ((w ++ rest).takeWhile p).length = w.length) :
    (∀ c ∈ w, p c = true) ∧ ∀ c ∈ rest.head?, p c = false := by
  induction w with
  | nil =>
    refine ⟨nofun, fun c hc => ?_⟩
    rcases rest with _ | ⟨d, rest⟩
    · cases hc
    · cases hc
      by_contra hp
      rw [List.nil_append, List.takeWhile_cons_of_pos (by simpa using hp)] at h
      simp at h
  | cons d w ih =>
    rw [List.cons_append, List.takeWhile_cons] at h
    split at h
    · obtain ⟨hw, hrest⟩ := ih (by simpa using h)
      exact ⟨List.forall_mem_cons.2 ⟨‹_›, hw⟩, hrest⟩
    · simp at h

end Runs

/-! ## Characters -/

theorem isAlpha_iff_toNat {c : Char} : c.isAlpha = true ↔ 65 ≤ c.toNat ∧ c.toNat ≤ 90 ∨ 97 ≤ c.toNat ∧ c.toNat ≤ 122 := by
  show (decide (65 ≤ c.val ∧ c.val ≤ 90) || (decide (97 ≤ c.val) && decide (c.val ≤ 122))) = true ↔ _
  simp only [Bool.or_eq_true, Bool.and_eq_true, decide_eq_true_eq, UInt32.le_iff_toNat_le]
  rfl

theorem isDigit_iff_toNat {c : Char} : c.isDigit = true ↔ 48 ≤ c.toNat ∧ c.toNat ≤ 57 := by
  show (decide (48 ≤ c.val) && decide (c.val ≤ 57)) = true ↔ _
  simp only [Bool.and_eq_true, decide_eq_true_eq, UInt32.le_iff_toNat_le]
  rfl

theorem startsName_iff_isAlpha {c : Char} : CharClass.startsName c = true ↔ c.isAlpha = true ∨ c = '_' := by
  rw [CharClass.startsName, Bool.or_eq_true, beq_iff_eq]

theorem continuesName_iff_isDigit {c : Char} :
    CharClass.continuesName c = true ↔ CharClass.startsName c = true ∨ c.isDigit = true := by
  show ((c.isAlpha || c.isDigit) || c == '_') = true ↔ (c.isAlpha || c == '_') = true ∨ _
  rw [Bool.or_eq_true, Bool.or_eq_true, Bool.or_eq_true]
  exact or_right_comm

theorem startsName_continues {c : Char} (h : CharClass.startsName c = true) : CharClass.continuesName c = true :=
  continuesName_iff_isDigit.2 (.inl h)

/-- A character that starts a name is none of those that reading looks for elsewhere. -/
theorem startsName_ne {c d : Char} (h : CharClass.startsName c = true) (hd : CharClass.startsName d = false) : c ≠ d := by
  rintro rfl
  rw [h] at hd
  cases hd

/-- Nor is one that continues a name. -/
theorem continuesName_ne {c d : Char} (h : CharClass.continuesName c = true) (hd : CharClass.continuesName d = false) : c ≠ d := by
  rintro rfl
  rw [h] at hd
  cases hd

theorem not_isGap {c : Char} (h : CharClass.continuesName c = true) : isGap c = false := by
  have hne {d : Char} (hd : CharClass.continuesName d = false) := continuesName_ne h hd
  simp [isGap, hne (d := ' ') (by decide), hne (d := '\t') (by decide), hne (d := '\r') (by decide),
    hne (d := '\n') (by decide), hne (d := '\x0c') (by decide)]

theorem isDigit_continues {c : Char} (h : c.isDigit = true) : CharClass.continuesName c = true :=
  continuesName_iff_isDigit.2 (.inr h)

theorem isDigit_startsName {c : Char} (h : c.isDigit = true) : CharClass.startsName c = false := by
  have hrange := isDigit_iff_toNat.1 h
  rw [← Bool.not_eq_true, startsName_iff_isAlpha, isAlpha_iff_toNat]
  rintro (halpha | rfl)
  · omega
  · cases h

/-! ## Symbols -/

/-- The symbols that a following `=` turns into others. -/
def takesEqual : Symbol → Bool
  | .less | .greater | .not => true
  | _ => false

theorem symbol?_spelled {mark : Symbol} {c : Char} {w : List Char} (h : mark.chars = c :: w) (rest : List Char)
    (hrest : takesEqual mark = true → rest.head? ≠ some '=') : symbol? c (w ++ rest) = some mark := by
  cases mark <;> cases h <;> try rfl
  all_goals
    have hrest := hrest rfl
    rcases rest with _ | ⟨d, rest⟩
    · rfl
    · have hd : d ≠ '=' := fun h => hrest (by rw [h]; rfl)
      unfold symbol?
      split <;> simp_all

theorem takesEqual_alone {mark : Symbol} {c : Char} {rest : List Char} (h : mark.chars = [c])
    (hread : symbol? c rest = some mark) (htakes : takesEqual mark = true) : rest.head? ≠ some '=' := by
  intro heq
  rcases rest with _ | ⟨d, rest⟩
  · cases heq
  · cases heq
    cases mark <;> cases htakes <;> cases h <;> cases hread

/-- What starts a symbol starts nothing else. -/
theorem opens_symbol {mark : Symbol} {c : Char} {w : List Char} (h : mark.chars = c :: w) :
    isGap c = false ∧ (c ≠ '#' ∧ c ≠ '/') ∧ CharClass.startsName c = false ∧ c.isDigit = false ∧ c ≠ '\x22' := by
  cases mark <;> cases h <;> decide

/-! ## Shapes -/

/-- A character that is neither a mark, a backslash nor a line feed stands for itself. -/
theorem insideLength_plain {c : Char} (cs : List Char) (hquote : c ≠ '\x22') (hfeed : c ≠ '\n') (hslash : c ≠ '\\') :
    Quoted.insideLength (c :: cs) = (Quoted.insideLength cs).map (· + 1) := by
  rw [Quoted.insideLength]
  · exact hquote
  · exact hfeed
  · exact fun _ h => absurd h hslash
  · exact fun _ _ h => absurd h hslash

theorem insideLength_take {cs : List Char} {n : Nat} (h : Quoted.insideLength cs = some n) (r : List Char) :
    Quoted.insideLength (cs.take (n + 1) ++ r) = some n := by
  fun_induction Quoted.insideLength cs generalizing n with
  | case1 => cases h
  | case2 rest => cases h; rfl
  | case3 => cases h
  | case4 => cases h
  | case5 c rest hne ih =>
    simp only [Option.map_eq_some_iff] at h
    obtain ⟨m, hm, rfl⟩ := h
    simp only [List.take_succ_cons, List.cons_append]
    rw [Quoted.insideLength, ih hm]
    · rfl
    · exact hne
  | case6 c rest h₁ h₂ h₃ h₄ ih =>
    simp only [Option.map_eq_some_iff] at h
    obtain ⟨m, hm, rfl⟩ := h
    have hc : c ≠ '\\' := by
      rintro rfl
      rcases rest with _ | ⟨d, rest⟩
      · cases hm
      · exact h₄ d rest rfl rfl
    simp only [List.take_succ_cons, List.cons_append]
    rw [insideLength_plain _ h₁ h₂ hc, ih hm]
    rfl

inductive Shape (rest : List Char) : Stretch → Prop
  | blank (c : Char) (gap : isGap c = true) : Shape rest ⟨none, [c]⟩
  | comment (c : Char) (w : List Char) (opens : c = '#' ∨ c = '/' ∧ w.head? = some '/')
    (line : ∀ d ∈ w, decide (d ≠ '\n') = true) (ends : ∀ d ∈ rest.head?, decide (d ≠ '\n') = false) :
    Shape rest ⟨none, c :: w⟩
  | word (c : Char) (w : List Char) (starts : CharClass.startsName c = true)
    (continues : ∀ d ∈ w, CharClass.continuesName d = true)
    (ends : ∀ d ∈ rest.head?, CharClass.continuesName d = false) : Shape rest ⟨some (wordToken (c :: w)), c :: w⟩
  | number (c : Char) (w : List Char) (digit : c.isDigit = true) (digits : ∀ d ∈ w, d.isDigit = true)
    (ends : ∀ d ∈ rest.head?, d.isDigit = false) (fits : decimal (c :: w) ≤ maxInteger) :
    Shape rest ⟨some (.integer (Int64.ofNat (decimal (c :: w)))), c :: w⟩
  | string (w : List Char) (n : Nat) (value : List Char) (closed : Quoted.insideLength w = some n)
    (whole : w.length = n + 1) (decodes : Quoted.decode (w.take n) = some value) :
    Shape rest ⟨some (.string (String.ofList value)), '\x22' :: w⟩
  | symbol (mark : Symbol) (ends : takesEqual mark = true → rest.head? ≠ some '=') :
    Shape rest ⟨some (.symbol mark), mark.chars⟩

/-- A stretch that starts with a quotation mark is a string that is closed, with escapes that are known. -/
theorem shape_of_stringPiece {token : Option Token} {w rest : List Char}
    (h : stringPiece (w ++ rest) = (Stretch.piece ⟨token, '\x22' :: w⟩, w.length)) : Shape rest ⟨token, '\x22' :: w⟩ := by
  unfold stringPiece at h
  split at h
  · cases token <;> cases h
  · rename_i n hn
    split at h
    · cases token <;> cases h
    · rename_i value hvalue
      obtain ⟨hpiece, hlength⟩ := Prod.mk.inj h
      have hw : (w ++ rest).take n = w.take n := List.take_append_of_le_length (by omega)
      have hclosed := insideLength_take hn []
      rw [List.append_nil, hlength, List.take_left] at hclosed
      cases token with
      | none => cases hpiece
      | some t => cases hpiece; exact .string w n value hclosed hlength.symm (hw ▸ hvalue)

theorem shape_of_symbol {mark : Symbol} {c : Char} {w rest : List Char} (h : symbol? c (w ++ rest) = some mark)
    (hlength : mark.spelling.length - 1 = w.length) : Shape rest ⟨some (.symbol mark), c :: w⟩ := by
  obtain ⟨w', hchars, hprefix⟩ := symbol?_chars h
  rw [Symbol.length_spelling, hchars, List.length_cons, Nat.add_sub_cancel] at hlength
  obtain rfl : w' = w := by
    obtain ⟨v, hv⟩ := hprefix
    exact (List.append_inj hv hlength).1
  rw [← hchars]
  refine .symbol mark fun htakes => ?_
  obtain rfl : w' = [] := by cases mark <;> cases htakes <;> cases hchars <;> rfl
  exact takesEqual_alone hchars h htakes

/-- What stands before a text has one of the shapes. -/
theorem Stretch.Stands.shape {x : Stretch} {rest : List Char} (h : x.Stands rest) : Shape rest x := by
  rcases x with ⟨token, text⟩
  obtain ⟨c, w, rfl, hread⟩ := h
  -- one case for each branch of the scanner; junk is no stretch
  unfold firstPiece at hread
  split at hread
  · obtain ⟨hpiece, hlength⟩ := Prod.mk.inj hread
    obtain rfl := List.length_eq_zero_iff.1 hlength.symm
    cases token with
    | none => exact .blank c ‹_›
    | some t => cases hpiece
  split at hread
  · obtain ⟨hpiece, hlength⟩ := Prod.mk.inj hread
    obtain ⟨hline, hends⟩ := run_of_length hlength
    cases token with
    | none =>
      refine .comment c w ?_ hline hends
      rename_i hopens
      refine hopens.imp id fun hc => ⟨hc.1, ?_⟩
      rcases w with _ | ⟨d, w⟩
      · have := hends '/' hc.2
        cases this
      · exact hc.2
    | some t => cases hpiece
  split at hread
  · obtain ⟨hpiece, hlength⟩ := Prod.mk.inj hread
    obtain ⟨hw, hends⟩ := run_of_length hlength
    rw [takeWhile_run hw hends] at hpiece
    cases token with
    | none => cases hpiece
    | some t => cases hpiece; exact .word c w ‹_› hw hends
  split at hread
  · obtain ⟨hpiece, hlength⟩ := Prod.mk.inj hread
    obtain ⟨hw, hends⟩ := run_of_length hlength
    rw [takeWhile_run hw hends] at hpiece
    split at hpiece
    · cases token with
      | none => cases hpiece
      | some t => cases hpiece; exact .number c w ‹_› hw hends ‹_›
    · cases token <;> cases hpiece
  split at hread
  · subst c
    exact shape_of_stringPiece hread
  · split at hread
    · rename_i mark hmark
      obtain ⟨hpiece, hlength⟩ := Prod.mk.inj hread
      cases token with
      | none => cases hpiece
      | some t => cases hpiece; exact shape_of_symbol hmark hlength
    · cases token <;> cases hread

/-- A run of digits is one piece, whether its value is too large or not. -/
theorem firstPiece_number {c : Char} {w rest : List Char} (digit : c.isDigit = true) (digits : ∀ d ∈ w, d.isDigit = true)
    (ends : ∀ d ∈ rest.head?, d.isDigit = false) : firstPiece c (w ++ rest) =
      (if decimal (c :: w) ≤ maxInteger then .token (.integer (Int64.ofNat (decimal (c :: w)))) else .junk, w.length) := by
  have hopens : ¬ (c = '#' ∨ c = '/' ∧ (w ++ rest).head? = some '/') := by
    rintro (rfl | ⟨rfl, -⟩) <;> cases digit
  rw [firstPiece, if_neg (by simp [not_isGap (isDigit_continues digit)]), if_neg hopens,
    if_neg (by simp [isDigit_startsName digit]), if_pos digit, takeWhile_run digits ends]

theorem Shape.stands {x : Stretch} {rest : List Char} (h : Shape rest x) : x.Stands rest := by
  cases h with
  | blank c gap => exact ⟨c, [], rfl, by simp [firstPiece, gap, Stretch.piece]⟩
  | comment c w opens line ends =>
    refine ⟨c, w, rfl, ?_⟩
    have hgap : isGap c = false := by rcases opens with rfl | ⟨rfl, -⟩ <;> decide
    have hopens : c = '#' ∨ c = '/' ∧ (w ++ rest).head? = some '/' := by
      refine opens.imp id fun h => ⟨h.1, ?_⟩
      rw [List.head?_append, h.2, Option.some_or]
    rw [firstPiece, if_neg (by simp [hgap]), if_pos hopens, restOfLine, takeWhile_run line ends]
    rfl
  | word c w starts continues ends =>
    refine ⟨c, w, rfl, ?_⟩
    have hopens : ¬ (c = '#' ∨ c = '/' ∧ (w ++ rest).head? = some '/') := by
      rintro (h | ⟨h, -⟩)
      · exact startsName_ne starts (by decide) h
      · exact startsName_ne starts (by decide) h
    rw [firstPiece, if_neg (by simp [not_isGap (startsName_continues starts)]), if_neg hopens, if_pos starts,
      takeWhile_run continues ends]
    rfl
  | number c w digit digits ends fits =>
    refine ⟨c, w, rfl, ?_⟩
    rw [firstPiece_number digit digits ends, if_pos fits]
    rfl
  | string w n value closed whole decodes =>
    refine ⟨'\x22', w, rfl, ?_⟩
    have hclosed : Quoted.insideLength (w ++ rest) = some n := by
      have := insideLength_take closed rest
      rwa [List.take_of_length_le (Nat.le_of_eq whole)] at this
    have hinside : (w ++ rest).take n = w.take n := List.take_append_of_le_length (by omega)
    rw [firstPiece, if_neg (by decide), if_neg (by simp), if_neg (by decide), if_neg (by decide), if_pos rfl, stringPiece]
    simp only [hclosed, hinside, decodes, whole, Stretch.piece, Option.elim_some]
  | symbol mark ends =>
    obtain ⟨c, w, hchars⟩ := List.exists_cons_of_ne_nil (Symbol.chars_ne_nil mark)
    obtain ⟨hgap, ⟨hhash, hslash⟩, hname, hdigit, hquote⟩ := opens_symbol hchars
    refine ⟨c, w, hchars, ?_⟩
    rw [firstPiece, if_neg (by simp [hgap]), if_neg (by simp [hhash, hslash]), if_neg (by simp [hname]),
      if_neg (by simp [hdigit]), if_neg hquote]
    simp only [symbol?_spelled hchars rest ends, Symbol.length_spelling, hchars, List.length_cons, Nat.add_sub_cancel,
      Stretch.piece, Option.elim_some]

/-! ## Edges -/

/-- Two texts of which reading sees the same when it stops before them. -/
def SameEdge (r s : List Char) : Prop :=
  r.head? = s.head? ∨
    ∃ c d, r.head? = some c ∧ s.head? = some d ∧ CharClass.startsName c = true ∧ CharClass.startsName d = true

namespace SameEdge

variable {r s : List Char}

/-- A class of characters that holds all that start names, or none, sees the same edge. -/
theorem forall_head? {p : Char → Prop} (h : SameEdge r s)
    (hp : (∀ c, CharClass.startsName c = true → p c) ∨ ∀ c, CharClass.startsName c = true → ¬ p c)
    (hr : ∀ c ∈ r.head?, p c) : ∀ c ∈ s.head?, p c := by
  rcases h with h | ⟨c, d, hc, hd, hsc, hsd⟩
  · rwa [← h]
  · intro d' hd'
    rw [hd] at hd'
    cases hd'
    rcases hp with hp | hp
    · exact hp _ hsd
    · exact absurd (hr c hc) (hp c hsc)

end SameEdge

/-- A stretch stands before any text with the same edge. -/
theorem Stretch.Stands.of_sameEdge {x : Stretch} {r s : List Char} (h : x.Stands r) (hedge : SameEdge r s) :
    x.Stands s := by
  refine Shape.stands ?_
  cases h.shape with
  | blank c gap => exact .blank c gap
  | comment c w opens line ends =>
    refine .comment c w opens line (hedge.forall_head? (.inr fun d hd => ?_) ends)
    simp [startsName_ne (d := '\n') hd (by decide)]
  | word c w starts continues ends =>
    refine .word c w starts continues (hedge.forall_head? (.inr fun d hd => ?_) ends)
    simp [startsName_continues hd]
  | number c w digit digits ends fits =>
    refine .number c w digit digits (hedge.forall_head? (.inl fun d hd => ?_) ends) fits
    by_contra hdigit
    rw [isDigit_startsName (by simpa using hdigit)] at hd
    cases hd
  | string w n value closed whole decodes => exact .string w n value closed whole decodes
  | symbol mark ends =>
    refine .symbol mark fun htakes heq => ?_
    have hne : ∀ d ∈ s.head?, d ≠ '=' :=
      hedge.forall_head? (.inl fun d hd => startsName_ne hd (by decide)) fun d hd heq => ends htakes (by rw [hd, heq])
    exact hne '=' heq rfl

end Parley.Scan
