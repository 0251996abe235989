/-
Respelled names. The words of a name have its characters other than underscores, in lower case, and can be
told apart again when underscores join them. A respelled name starts with the first of these characters. It
keeps its convention just when that is a letter, and then it is a name as well, unless it is reserved; only
snake case can lead to a reserved word.
-/
import Parley.Proofs.Token.Spelling
import Parley.Text.Casing
import Mathlib

namespace Parley.Casing

/-! ## Characters -/

/-- A small letter or a digit. -/
def isSmall (c : Char) : Bool := c.isLower || c.isDigit

section Letters

variable {c : Char}

theorem isAlphanum_of_isSmall (h : isSmall c = true) : c.isAlphanum = true :=
  Bool.or_eq_true_iff.2 ((Bool.or_eq_true_iff.1 h).imp_left fun hlower => Bool.or_eq_true_iff.2 (.inr hlower))

theorem isAlphanum_of_isUpper (h : c.isUpper = true) : c.isAlphanum = true :=
  Bool.or_eq_true_iff.2 (.inl (Bool.or_eq_true_iff.2 (.inl h)))

theorem ne_underscore_of_isAlphanum (h : c.isAlphanum = true) : c ≠ '_' := by
  rintro rfl
  exact absurd h (by decide)

theorem startsName_of_isAlphanum (h : c.isAlphanum = true) : CharClass.startsName c = c.isAlpha := by
  rw [CharClass.startsName, beq_false_of_ne (ne_underscore_of_isAlphanum h), Bool.or_false]

theorem not_isAlpha_of_isDigit (h : c.isDigit = true) : c.isAlpha = false := by
  have hdigit := Char.isDigit_iff_toNat.1 h
  simp only [Char.isAlpha, Char.isUpper, Char.isLower, UInt32.le_iff_toNat_le, Char.toNat_val, ge_iff_le,
    Bool.or_eq_false_iff, Bool.and_eq_false_iff, decide_eq_false_iff_not, Char.reduceToNat] at hdigit ⊢
  omega

theorem isAlphanum_toUpper (c : Char) : c.toUpper.isAlphanum = c.isAlphanum := by
  by_cases hlower : c.isLower
  · have halpha : c.isAlpha = true := Bool.or_eq_true_iff.2 (.inr hlower)
    rw [Char.isAlphanum, Char.isAlphanum, Char.isAlpha_toUpper_eq_isAlpha, halpha, Bool.true_or, Bool.true_or]
  · rw [Char.toUpper_eq_of_not_isLower hlower]

theorem isSmall_spec (h : isSmall c = true) : c.isUpper = false ∧ c.toLower = c ∧ c ≠ '_' := by
  have hupper : ¬c.isUpper := by
    rcases Bool.or_eq_true_iff.1 h with hlower | hdigit
    · exact Char.not_isUpper_of_isLower hlower
    · exact Bool.eq_false_iff.1 (Bool.or_eq_false_iff.1 (not_isAlpha_of_isDigit hdigit)).1
  exact ⟨Bool.eq_false_of_not_eq_true hupper, Char.toLower_eq_of_not_isUpper hupper,
    ne_underscore_of_isAlphanum (isAlphanum_of_isSmall h)⟩

/-- A small letter or a digit in capitals. -/
theorem toUpper_spec (h : isSmall c = true) :
    c.toUpper.toLower = c ∧ c.toUpper.isLower = false ∧ c.toUpper.isAlphanum = true ∧ c.toUpper ≠ '_' := by
  have halphanum : c.toUpper.isAlphanum = true := (isAlphanum_toUpper c).trans (isAlphanum_of_isSmall h)
  exact ⟨(Char.toLower_toUpper_eq_toLower c).trans (isSmall_spec h).2.1, Char.isLower_toUpper_eq_false c, halphanum,
    ne_underscore_of_isAlphanum halphanum⟩

theorem isSmall_toLower (h : c.isAlphanum = true) : isSmall c.toLower = true := by
  rcases Bool.or_eq_true_iff.1 h with halpha | hdigit
  · exact Bool.or_eq_true_iff.2 (.inl ((Char.isLower_toLower_eq_isAlpha c).trans halpha))
  · have hsmall : isSmall c = true := Bool.or_eq_true_iff.2 (.inr hdigit)
    exact (isSmall_spec hsmall).2.1.symm ▸ hsmall

/-- A letter or a digit in lower case, and in upper case again. -/
theorem toLower_spec (h : c.isAlphanum = true) :
    isSmall c.toLower = true ∧ c.toLower.isLower = c.isAlpha ∧ CharClass.startsName c.toLower = c.isAlpha ∧
      c.toLower.toUpper.isUpper = c.isAlpha ∧ CharClass.startsName c.toLower.toUpper = c.isAlpha ∧
      c.toLower.toUpper.isAlphanum = true := by
  have hsmall := isSmall_toLower h
  obtain ⟨-, -, halphanum, -⟩ := toUpper_spec hsmall
  refine ⟨hsmall, Char.isLower_toLower_eq_isAlpha c, ?_, ?_, ?_, halphanum⟩
  · rw [startsName_of_isAlphanum (isAlphanum_of_isSmall hsmall), Char.isAlpha_toLower_eq_isAlpha]
  · rw [Char.isUpper_toUpper_eq_isAlpha, Char.isAlpha_toLower_eq_isAlpha]
  · rw [startsName_of_isAlphanum halphanum, Char.isAlpha_toUpper_eq_isAlpha, Char.isAlpha_toLower_eq_isAlpha]

theorem isUpper_spec (h : c.isUpper = true) : isSmall c = false ∧ c ≠ '_' := by
  refine ⟨Bool.eq_false_of_not_eq_true fun hsmall => ?_, ne_underscore_of_isAlphanum (isAlphanum_of_isUpper h)⟩
  rw [(isSmall_spec hsmall).1] at h
  cases h

theorem isUpper_of_not_isSmall (h : c.isAlphanum = true) (hsmall : isSmall c = false) : c.isUpper = true := by
  obtain ⟨hlower, hdigit⟩ := Bool.or_eq_false_iff.1 hsmall
  simpa [Char.isAlphanum, Char.isAlpha, hlower, hdigit] using h

theorem continues_of_isAlphanum (h : c.isAlphanum = true) : CharClass.continuesName c = true := by
  rw [CharClass.continuesName, h, Bool.true_or]

theorem isAlphanum_of_continues (h : CharClass.continuesName c = true) (hc : c ≠ '_') : c.isAlphanum = true := by
  simpa [CharClass.continuesName, hc] using h

end Letters

/-! ## Words -/

section Words

variable {word : List Char} {small : Bool} {cs : List Char}

/-- The words of a name have its characters other than underscores. -/
theorem flatten_wordsFrom (word : List Char) (small : Bool) (cs : List Char) :
    (wordsFrom word small cs).flatten = word ++ (cs.filter (· ≠ '_')).map Char.toLower := by
  have hword : ∀ w : List Char, (nonEmpty w).flatten = w := by
    intro w
    cases w <;> simp [nonEmpty]
  fun_induction wordsFrom word small cs with
  | case1 word => simp [hword]
  | case2 word small cs ih => simp [hword, ih]
  | case3 word small c cs hc hsplit ih => simp [ih, hc]
  | case4 word small c cs hc hsplit ih => simp [ih, hc]

/-- Every word has characters, all of them small letters and digits. -/
theorem forall_wordsFrom (hcs : ∀ c ∈ cs, CharClass.continuesName c = true) (hword : ∀ c ∈ word, isSmall c = true)
    (hsmall : small = true → word ≠ []) : ∀ w ∈ wordsFrom word small cs, w ≠ [] ∧ ∀ c ∈ w, isSmall c = true := by
  have hnonEmpty : ∀ word : List Char, (∀ c ∈ word, isSmall c = true) →
      ∀ w ∈ nonEmpty word, w ≠ [] ∧ ∀ c ∈ w, isSmall c = true := by
    rintro (_ | ⟨c, word⟩) hword w hw
    · cases hw
    · obtain rfl := List.mem_singleton.1 hw
      exact ⟨List.cons_ne_nil _ _, hword⟩
  fun_induction wordsFrom word small cs with
  | case1 word => exact hnonEmpty word hword
  | case2 word small cs ih =>
    intro w hw
    rcases List.mem_append.1 hw with hw | hw
    · exact hnonEmpty word hword w hw
    · exact ih (fun c hc => hcs c (List.mem_cons_of_mem _ hc)) nofun nofun w hw
  | case3 word small c cs hc hsplit ih =>
    have hlower := (toLower_spec (isAlphanum_of_continues (hcs c List.mem_cons_self) hc)).1
    intro w hw
    rcases List.mem_cons.1 hw with rfl | hw
    · exact ⟨hsmall (Bool.and_eq_true_iff.1 hsplit).2, hword⟩
    · refine ih (fun d hd => hcs d (List.mem_cons_of_mem _ hd)) ?_ nofun w hw
      intro d hd
      rwa [List.mem_singleton.1 hd]
  | case4 word small c cs hc hsplit ih =>
    have hlower := (toLower_spec (isAlphanum_of_continues (hcs c List.mem_cons_self) hc)).1
    have hne : word ++ [c.toLower] ≠ [] := List.append_ne_nil_of_right_ne_nil _ (List.cons_ne_nil _ _)
    refine ih (fun d hd => hcs d (List.mem_cons_of_mem _ hd)) ?_ fun _ => hne
    intro d hd
    rcases List.mem_append.1 hd with hd | hd
    · exact hword d hd
    · rwa [List.mem_singleton.1 hd]

end Words

section Runs

variable (word : List Char) (small : Bool) (cs : List Char)

theorem wordsFrom_underscores (n : Nat) : wordsFrom [] false (List.replicate n '_' ++ cs) = wordsFrom [] false cs := by
  induction n with
  | zero => rfl
  | succ n ih =>
    rw [List.replicate_succ, List.cons_append, wordsFrom, if_pos rfl, ih]
    rfl

theorem wordsFrom_capitals {w : List Char} (hw : ∀ c ∈ w, c.isUpper = true) :
    wordsFrom word false (w ++ cs) = wordsFrom (word ++ w.map Char.toLower) false cs := by
  induction w generalizing word with
  | nil => rw [List.map_nil, List.append_nil, List.nil_append]
  | cons c w ih =>
    rw [List.forall_mem_cons] at hw
    obtain ⟨hsmall, hne⟩ := isUpper_spec hw.1
    have hcase : (c.isLower || c.isDigit) = false := hsmall
    rw [List.cons_append, wordsFrom, if_neg hne, if_neg (by simp), hcase, ih _ hw.2, List.map_cons, List.append_assoc,
      List.singleton_append]

theorem wordsFrom_small {w : List Char} (hw : ∀ c ∈ w, isSmall c = true) :
    wordsFrom word small (w ++ cs) = wordsFrom (word ++ w) (small || !w.isEmpty) cs := by
  induction w generalizing word small with
  | nil => simp
  | cons c w ih =>
    rw [List.forall_mem_cons] at hw
    obtain ⟨hupper, hsame, hne⟩ := isSmall_spec hw.1
    have hcase : (c.isLower || c.isDigit) = true := hw.1
    rw [List.cons_append, wordsFrom, if_neg hne, hupper, if_neg (by simp), hcase, ih _ _ hw.2, hsame, List.append_cons]
    simp

theorem wordsFrom_trailing (n : Nat) : wordsFrom word small (List.replicate n '_') = nonEmpty word := by
  cases n with
  | zero => rfl
  | succ n =>
    have hnone := wordsFrom_underscores [] n
    rw [List.append_nil] at hnone
    rw [List.replicate_succ, wordsFrom, if_pos rfl, hnone]
    exact List.append_nil _

end Runs

/-- The letters and digits of a name, all of them small. -/
def letters (cs : List Char) : List Char := (cs.filter (· ≠ '_')).map Char.toLower

theorem flatten_words (cs : List Char) : (words cs).flatten = letters cs := flatten_wordsFrom [] false cs

theorem forall_words {cs : List Char} (hcs : ∀ c ∈ cs, CharClass.continuesName c = true) :
    ∀ w ∈ words cs, w ≠ [] ∧ ∀ c ∈ w, isSmall c = true := forall_wordsFrom hcs nofun nofun

/-- A name without words has no characters but underscores; otherwise its first word starts with the first of the others. -/
theorem words_cases {cs : List Char} (hcs : ∀ c ∈ cs, CharClass.continuesName c = true) :
    (words cs = [] ∧ cs.find? (· ≠ '_') = none) ∨
    ∃ c w ws, words cs = (c.toLower :: w) :: ws ∧ cs.find? (· ≠ '_') = some c ∧ c.isAlphanum = true := by
  have hflatten := flatten_words cs
  have hwords := forall_words hcs
  rw [← List.head?_filter]
  rcases hcase : words cs with _ | ⟨w, ws⟩
  · rw [hcase] at hflatten
    exact .inl ⟨rfl, by rw [List.map_eq_nil_iff.1 hflatten.symm]; rfl⟩
  · rw [hcase] at hflatten hwords
    obtain ⟨d, w, rfl⟩ := List.exists_cons_of_ne_nil (hwords w List.mem_cons_self).1
    rw [List.flatten_cons, List.cons_append] at hflatten
    obtain ⟨c, rest, hfilter, rfl, -⟩ := List.map_eq_cons_iff.1 hflatten.symm
    have hmem := List.mem_filter.1 (hfilter ▸ List.mem_cons_self : c ∈ cs.filter (· ≠ '_'))
    refine .inr ⟨c, w, ws, rfl, by rw [hfilter]; rfl, ?_⟩
    exact isAlphanum_of_continues (hcs c hmem.1) (by simpa using hmem.2)

theorem words_of_small {w : List Char} (hne : w ≠ []) (hw : ∀ c ∈ w, isSmall c = true) : words w = [w] := by
  obtain ⟨c, w, rfl⟩ := List.exists_cons_of_ne_nil hne
  have hread := wordsFrom_small [] false [] hw
  rw [List.append_nil] at hread
  rw [words, hread]
  rfl

theorem words_append {w : List Char} (hne : w ≠ []) (hw : ∀ c ∈ w, isSmall c = true) (cs : List Char) :
    words (w ++ '_' :: cs) = w :: words cs := by
  obtain ⟨c, w, rfl⟩ := List.exists_cons_of_ne_nil hne
  rw [words, wordsFrom_small _ _ _ hw, wordsFrom, if_pos rfl]
  rfl

/-- Words of small letters and digits can be told apart again when underscores join them. -/
theorem words_intercalate {ws : List (List Char)} (hws : ∀ w ∈ ws, w ≠ [] ∧ ∀ c ∈ w, isSmall c = true) :
    words (['_'].intercalate ws) = ws := by
  induction ws with
  | nil => rfl
  | cons w ws ih =>
    rw [List.forall_mem_cons] at hws
    obtain ⟨⟨hne, hw⟩, hws⟩ := hws
    cases ws with
    | nil => rw [List.intercalate_singleton, words_of_small hne hw]
    | cons v ws =>
      rw [List.intercalate_cons_cons, List.append_assoc, List.singleton_append, words_append hne hw, ih hws]

/-! ## Respelled names -/

/-- The first character of a name other than an underscore is a letter. -/
def LeadsWithLetter (cs : List Char) : Prop := ∃ c ∈ cs.find? (· ≠ '_'), c.isAlpha = true

theorem not_leadsWithLetter {cs : List Char} (h : cs.find? (· ≠ '_') = none) : ¬LeadsWithLetter cs := by
  rintro ⟨c, hc, -⟩
  rw [h] at hc
  cases hc

theorem leadsWithLetter_iff {cs : List Char} {c : Char} (h : cs.find? (· ≠ '_') = some c) :
    LeadsWithLetter cs ↔ c.isAlpha = true := by
  constructor
  · rintro ⟨d, hd, halpha⟩
    rw [h] at hd
    exact Option.some.inj hd ▸ halpha
  · exact fun halpha => ⟨c, h, halpha⟩

theorem intercalate_cons (w : List Char) (ws : List (List Char)) :
    ['_'].intercalate (w :: ws) = w ++ ws.flatMap ('_' :: ·) := by
  induction ws generalizing w with
  | nil => simp [List.intercalate_singleton]
  | cons v ws ih =>
    rw [List.intercalate_cons_cons, ih v, List.flatMap_cons, List.append_assoc, List.singleton_append, List.cons_append]

theorem hasDoubleUnderscore_cons {c : Char} (hc : c ≠ '_') (cs : List Char) :
    hasDoubleUnderscore (c :: cs) = hasDoubleUnderscore cs := by
  rw [hasDoubleUnderscore]
  exact fun _ h => absurd h hc

theorem hasDoubleUnderscore_append {w : List Char} (hw : ∀ c ∈ w, c ≠ '_') (cs : List Char) :
    hasDoubleUnderscore (w ++ cs) = hasDoubleUnderscore cs := by
  induction w with
  | nil => rfl
  | cons c w ih =>
    rw [List.forall_mem_cons] at hw
    rw [List.cons_append, hasDoubleUnderscore_cons hw.1, ih hw.2]

/-- Words are joined by single underscores. -/
theorem hasDoubleUnderscore_joined {ws : List (List Char)} (hws : ∀ w ∈ ws, w ≠ [] ∧ ∀ c ∈ w, c ≠ '_') :
    hasDoubleUnderscore (ws.flatMap ('_' :: ·)) = false := by
  induction ws with
  | nil => rfl
  | cons w ws ih =>
    rw [List.forall_mem_cons] at hws
    obtain ⟨⟨hne, hw⟩, hws⟩ := hws
    obtain ⟨c, w, rfl⟩ := List.exists_cons_of_ne_nil hne
    rw [List.flatMap_cons, List.cons_append, List.cons_append, hasDoubleUnderscore, ← List.cons_append,
      hasDoubleUnderscore_append hw, ih hws]
    exact fun _ _ h => hw c List.mem_cons_self (List.cons.inj h).1

section Respelled

variable {name : String} (hname : ∀ c ∈ name.toList, CharClass.continuesName c = true)

include hname

section Words

variable {c : Char} {w : List Char} {ws : List (List Char)} (hwords : words name.toList = (c.toLower :: w) :: ws)

include hwords

theorem respell_upperCamel :
    ∃ tail, (upperCamel.respell name).toList = c.toLower.toUpper :: tail ∧ ∀ d ∈ tail, d.isAlphanum = true := by
  have hsmall := forall_words hname
  rw [hwords, List.forall_mem_cons] at hsmall
  refine ⟨w ++ ws.flatMap capitalize, ?_, fun d hd => ?_⟩
  · rw [respell, hwords, String.toList_ofList]
    rfl
  · rcases List.mem_append.1 hd with hd | hd
    · exact isAlphanum_of_isSmall (hsmall.1.2 d (List.mem_cons_of_mem _ hd))
    · obtain ⟨v, hv, hd⟩ := List.mem_flatMap.1 hd
      obtain ⟨e, v, rfl⟩ := List.exists_cons_of_ne_nil (hsmall.2 v hv).1
      have hv := (hsmall.2 _ hv).2
      rcases List.mem_cons.1 hd with rfl | hd
      · exact (toUpper_spec (hv e List.mem_cons_self)).2.2.1
      · exact isAlphanum_of_isSmall (hv d (List.mem_cons_of_mem _ hd))

theorem respell_snake : ∃ tail, (snake.respell name).toList = c.toLower :: tail ∧ (∀ d ∈ tail, isSmall d = true ∨ d = '_') ∧
    hasDoubleUnderscore (c.toLower :: tail) = false := by
  have hsmall := forall_words hname
  rw [hwords, List.forall_mem_cons] at hsmall
  have hplain : ∀ v : List Char, (∀ d ∈ v, isSmall d = true) → ∀ d ∈ v, d ≠ '_' := fun v hv d hd => (isSmall_spec (hv d hd)).2.2
  refine ⟨w ++ ws.flatMap ('_' :: ·), ?_, fun d hd => ?_, ?_⟩
  · rw [respell, hwords, String.toList_ofList, intercalate_cons]
    rfl
  · rcases List.mem_append.1 hd with hd | hd
    · exact .inl (hsmall.1.2 d (List.mem_cons_of_mem _ hd))
    · obtain ⟨v, hv, hd⟩ := List.mem_flatMap.1 hd
      exact (List.mem_cons.1 hd).symm.imp_left ((hsmall.2 v hv).2 d)
  · rw [← List.cons_append, hasDoubleUnderscore_append (hplain _ hsmall.1.2)]
    exact hasDoubleUnderscore_joined fun v hv => ⟨(hsmall.2 v hv).1, hplain v (hsmall.2 v hv).2⟩

end Words

/-- A respelled name keeps its convention just when the first character of the name other than an underscore is a
letter. -/
theorem accepts_respell (casing : Casing) : casing.accepts (casing.respell name) = true ↔ LeadsWithLetter name.toList := by
  rcases words_cases hname with ⟨hnone, hfind⟩ | ⟨c, w, ws, hsome, hfind, hc⟩
  · have hleft : casing.accepts (casing.respell name) = false := by
      cases casing <;> rw [respell, hnone] <;> rfl
    simp only [hleft, not_leadsWithLetter hfind, Bool.false_eq_true]
  · obtain ⟨hsmall, hlower, -, hupper, -, halphanum⟩ := toLower_spec hc
    rw [leadsWithLetter_iff hfind]
    cases casing with
    | upperCamel =>
      obtain ⟨tail, htail, hall⟩ := respell_upperCamel hname hsome
      have hchars : (c.toLower.toUpper :: tail).all Char.isAlphanum = true :=
        List.all_eq_true.2 (List.forall_mem_cons.2 ⟨halphanum, hall⟩)
      rw [accepts, htail, isUpperCamel, hchars, Bool.and_true, ← hupper]
      rfl
    | snake =>
      obtain ⟨tail, htail, hall, hdouble⟩ := respell_snake hname hsome
      have hbody : (c.toLower :: tail).dropWhile (· == '_') = c.toLower :: tail :=
        List.dropWhile_cons_of_neg (by simpa using (isSmall_spec hsmall).2.2)
      have hchars : (c.toLower :: tail).all (fun d => d.isLower || d.isDigit || d == '_') = true := by
        simp only [List.all_cons, Bool.and_eq_true, List.all_eq_true, Bool.or_eq_true, beq_iff_eq]
        refine ⟨.inl (Bool.or_eq_true_iff.1 hsmall), fun d hd => ?_⟩
        exact (hall d hd).imp_left Bool.or_eq_true_iff.1
      rw [accepts, htail, isSnake, hbody, hdouble, hchars, ← hlower]
      simp

/-- A respelled name starts like a name just when the name leads with a letter, and goes on like one in any case. -/
theorem respell_chars (casing : Casing) :
    ((casing.respell name).toList.head?.any CharClass.startsName = true ↔ LeadsWithLetter name.toList) ∧
      (casing.respell name).toList.all CharClass.continuesName = true := by
  rcases words_cases hname with ⟨hnone, hfind⟩ | ⟨c, w, ws, hsome, hfind, hc⟩
  · have hempty : casing.respell name = "" := by
      cases casing <;> rw [respell, hnone] <;> rfl
    simp [hempty, not_leadsWithLetter hfind]
  · obtain ⟨hsmall, -, hstarts, -, hcapital, halphanum⟩ := toLower_spec hc
    rw [leadsWithLetter_iff hfind]
    cases casing with
    | upperCamel =>
      obtain ⟨tail, htail, hall⟩ := respell_upperCamel hname hsome
      rw [htail, List.all_cons, continues_of_isAlphanum halphanum, Bool.true_and, List.all_eq_true, ← hcapital]
      exact ⟨Iff.rfl, fun d hd => continues_of_isAlphanum (hall d hd)⟩
    | snake =>
      obtain ⟨tail, htail, hall, -⟩ := respell_snake hname hsome
      rw [htail, List.all_cons, continues_of_isAlphanum (isAlphanum_of_isSmall hsmall), Bool.true_and, List.all_eq_true, ← hstarts]
      refine ⟨Iff.rfl, fun d hd => ?_⟩
      rcases hall d hd with hd | rfl
      · exact continues_of_isAlphanum (isAlphanum_of_isSmall hd)
      · rfl

end Respelled

/-! ## Reserved words -/

/-- A name that is a reserved word once its capitals and the underscores around it are gone: capitals, then small
letters. -/
def HidesKeyword (cs : List Char) : Prop :=
  ∃ (word : Keyword) (m n : Nat) (capitals letters : List Char),
    cs = List.replicate m '_' ++ capitals ++ letters ++ List.replicate n '_' ∧
    (∀ c ∈ capitals, c.isUpper = true) ∧ (∀ c ∈ letters, c.isLower = true) ∧
    (capitals ++ letters).map Char.toLower = word.spelling.toList

theorem map_toLower {w : List Char} (hw : ∀ c ∈ w, isSmall c = true) : w.map Char.toLower = w :=
  (List.map_congr_left fun c hc => (isSmall_spec (hw c hc)).2.1).trans (List.map_id w)

theorem words_of_parts (m : Nat) {capitals letters : List Char} (rest : List Char) (hcapitals : ∀ c ∈ capitals, c.isUpper = true)
    (hletters : ∀ c ∈ letters, isSmall c = true) :
    words (List.replicate m '_' ++ capitals ++ letters ++ rest) =
      wordsFrom (capitals.map Char.toLower ++ letters) (!letters.isEmpty) rest := by
  rw [words, List.append_assoc, List.append_assoc, wordsFrom_underscores, wordsFrom_capitals _ _ hcapitals,
    wordsFrom_small _ _ _ hletters, Bool.false_or, List.nil_append]

theorem words_eq_nil {cs : List Char} (h : words cs = []) : cs = List.replicate cs.length '_' := by
  have hflatten := flatten_words cs
  rw [h] at hflatten
  have hnone := List.filter_eq_nil_iff.1 (List.map_eq_nil_iff.1 hflatten.symm)
  exact List.eq_replicate_of_mem fun c hc => by simpa using hnone c hc

/-- The longest run of characters of a kind that a text starts with. -/
theorem exists_run (p : Char → Bool) (cs : List Char) :
    ∃ w rest, cs = w ++ rest ∧ (∀ c ∈ w, p c = true) ∧ ∀ c ∈ rest.head?, p c = false := by
  refine ⟨cs.takeWhile p, cs.dropWhile p, List.takeWhile_append_dropWhile.symm,
    List.all_eq_true.1 List.all_takeWhile, fun c hc => ?_⟩
  have := List.head?_dropWhile_not p cs
  rw [Option.mem_def.1 hc] at this
  exact this

/-- A word that no other follows has nothing but underscores behind it. -/
theorem underscores_of_single {word rest w : List Char} {small : Bool} (hunderscore : rest.head? = some '_' → word ≠ [])
    (hcapital : ∀ c ∈ rest.head?, c ≠ '_' → c.isUpper = true ∧ small = true) (h : wordsFrom word small rest = [w]) :
    word = w ∧ rest = List.replicate rest.length '_' := by
  rcases rest with _ | ⟨c, rest⟩
  · rw [wordsFrom] at h
    cases word with
    | nil => cases h
    | cons d word => exact ⟨List.head_eq_of_cons_eq h, rfl⟩
  · by_cases hc : c = '_'
    · subst hc
      obtain ⟨d, word, rfl⟩ := List.exists_cons_of_ne_nil (hunderscore rfl)
      rw [wordsFrom, if_pos rfl] at h
      obtain ⟨hw, hnone⟩ := List.cons.inj h
      rw [List.length_cons, List.replicate_succ, ← words_eq_nil hnone]
      exact ⟨hw, rfl⟩
    · -- a capital behind a small letter or a digit starts another word
      obtain ⟨hupper, rfl⟩ := hcapital c rfl hc
      rw [wordsFrom, if_neg hc, hupper, Bool.and_self, if_pos rfl] at h
      have hflatten := flatten_wordsFrom [c.toLower] false rest
      rw [(List.cons.inj h).2] at hflatten
      cases hflatten

/-- A name has a single word just if it has capitals first and small letters and digits behind them, between underscores. -/
theorem parts_of_words {cs w : List Char} (hcs : ∀ c ∈ cs, CharClass.continuesName c = true) (h : words cs = [w]) :
    ∃ (m n : Nat) (capitals letters : List Char), cs = List.replicate m '_' ++ capitals ++ letters ++ List.replicate n '_' ∧
      (∀ c ∈ capitals, c.isUpper = true) ∧ (∀ c ∈ letters, isSmall c = true) ∧ capitals.map Char.toLower ++ letters = w := by
  obtain ⟨lead, inner, rfl, hlead, hinner⟩ := exists_run (· == '_') cs
  obtain ⟨capitals, inner, rfl, hcapitals, hnotCapital⟩ := exists_run Char.isUpper inner
  obtain ⟨letters, rest, rfl, hletters, hnotSmall⟩ := exists_run isSmall inner
  obtain ⟨m, rfl⟩ : ∃ m, lead = List.replicate m '_' :=
    ⟨lead.length, List.eq_replicate_of_mem fun c hc => by simpa using hlead c hc⟩
  rw [← List.append_assoc, ← List.append_assoc, words_of_parts _ _ hcapitals hletters] at h
  have hunderscore : rest.head? = some '_' → capitals.map Char.toLower ++ letters ≠ [] := by
    intro hhead hnil
    obtain ⟨hnone, rfl⟩ := List.append_eq_nil_iff.1 hnil
    obtain rfl := List.map_eq_nil_iff.1 hnone
    cases hinner '_' hhead
  have hcapital : ∀ c ∈ rest.head?, c ≠ '_' → c.isUpper = true ∧ (!letters.isEmpty) = true := by
    intro c hc hne
    have hmem : c ∈ rest := List.mem_of_mem_head? hc
    have hupper := isUpper_of_not_isSmall (isAlphanum_of_continues (hcs c (by simp [hmem])) hne) (hnotSmall c hc)
    refine ⟨hupper, ?_⟩
    cases letters with
    | nil =>
      rw [hnotCapital c hc] at hupper
      cases hupper
    | cons d letters => rfl
  obtain ⟨hword, hrest⟩ := underscores_of_single hunderscore hcapital h
  exact ⟨m, rest.length, capitals, letters, by rw [← hrest]; simp only [List.append_assoc], hcapitals, hletters, hword⟩

/-! ## Names -/

theorem ofSpelling?_eq_none_iff {word : String} : Keyword.ofSpelling? word = none ↔ ∀ k : Keyword, k.spelling ≠ word := by
  rw [Option.eq_none_iff_forall_ne_some]
  exact forall_congr' fun k => not_congr Keyword.ofSpelling?_eq_some_iff

/-- Reserved words are made of small letters. -/
theorem isLower_spelling (k : Keyword) : k.spelling.toList ≠ [] ∧ ∀ c ∈ k.spelling.toList, c.isLower = true := by
  cases k <;> simp [Keyword.spelling]

section Names

variable {name : String} (hname : ∀ c ∈ name.toList, CharClass.continuesName c = true)

include hname

theorem respell_upperCamel_ne (k : Keyword) (hlead : LeadsWithLetter name.toList) : k.spelling ≠ upperCamel.respell name := by
  intro heq
  have haccepts := (accepts_respell hname .upperCamel).2 hlead
  rw [← heq] at haccepts
  revert haccepts
  cases k <;> decide

omit hname in
theorem respell_snake_eq_iff (k : Keyword) : k.spelling = snake.respell name ↔ words name.toList = [k.spelling.toList] := by
  obtain ⟨hne, hlower⟩ := isLower_spelling k
  constructor
  · intro h
    have hchars : k.spelling.toList = ['_'].intercalate (words name.toList) := by rw [h, respell, String.toList_ofList]
    rcases hwords : words name.toList with _ | ⟨w, _ | ⟨v, ws⟩⟩
    · rw [hwords] at hchars
      exact absurd hchars hne
    · rw [hwords, List.intercalate_singleton] at hchars
      rw [hchars]
    · -- two words have an underscore between them, which no reserved word has
      rw [hwords, intercalate_cons] at hchars
      have hunderscore := hlower '_' (by rw [hchars]; simp)
      cases hunderscore
  · intro h
    rw [respell, h, List.intercalate_singleton, String.ofList_toList]

/-- A name in snake case is respelled as a reserved word just if it hides one. -/
theorem exists_keyword_iff : (∃ k : Keyword, k.spelling = snake.respell name) ↔ HidesKeyword name.toList := by
  constructor
  · rintro ⟨k, hk⟩
    obtain ⟨m, n, capitals, letters, hcs, hcapitals, hletters, hword⟩ := parts_of_words hname ((respell_snake_eq_iff k).1 hk)
    refine ⟨k, m, n, capitals, letters, hcs, hcapitals, fun c hc => ?_, ?_⟩
    · exact (isLower_spelling k).2 c (hword ▸ List.mem_append_right _ hc)
    · rw [List.map_append, map_toLower hletters, hword]
  · rintro ⟨k, m, n, capitals, letters, hcs, hcapitals, hletters, hword⟩
    have hsmall : ∀ c ∈ letters, isSmall c = true := fun c hc => Bool.or_eq_true_iff.2 (.inl (hletters c hc))
    rw [List.map_append, map_toLower hsmall] at hword
    refine ⟨k, (respell_snake_eq_iff k).2 ?_⟩
    rw [hcs, words_of_parts _ _ hcapitals hsmall, hword, wordsFrom_trailing]
    obtain ⟨c, w, hchars⟩ := List.exists_cons_of_ne_nil (isLower_spelling k).1
    rw [hchars]
    rfl

/-- What is suggested for a name is a name itself just if the name leads with a letter and hides no reserved word. -/
theorem isName_respell (casing : Casing) : IsName (casing.respell name) ↔
    LeadsWithLetter name.toList ∧ (casing = .snake → ¬HidesKeyword name.toList) := by
  obtain ⟨hstarts, hcontinues⟩ := respell_chars hname casing
  rw [IsName, hstarts, hcontinues, ofSpelling?_eq_none_iff]
  simp only [true_and]
  refine and_congr_right fun hlead => ?_
  cases casing with
  | upperCamel => simpa using fun k => respell_upperCamel_ne hname k hlead
  | snake => rw [← exists_keyword_iff hname]; simp

end Names

end Parley.Casing
