/-
Tokens that a text can hold, and texts that hold given tokens. A word is a name if it has the
characters of one and is not reserved; an integer is written without a sign. Every other token has
a spelling that is read back as it, provided that what follows does not run into it.
-/
import Parley.Proofs.Token.Edge
import Mathlib.Tactic.SplitIfs

namespace Parley

/-- A word that can name something: made of the characters of names, and not reserved. -/
def IsName (word : String) : Prop :=
  word.toList.head?.any CharClass.startsName = true ∧ word.toList.all CharClass.continuesName = true ∧
    Keyword.ofSpelling? word = none

instance (word : String) : Decidable (IsName word) := inferInstanceAs (Decidable (_ ∧ _ ∧ _))

theorem IsName.toList {word : String} (h : IsName word) : ∃ c w, word.toList = c :: w ∧
    CharClass.startsName c = true ∧ ∀ d ∈ w, CharClass.continuesName d = true := by
  obtain ⟨hstarts, hcontinues, -⟩ := h
  cases hw : word.toList with
  | nil => rw [hw] at hstarts; cases hstarts
  | cons c w =>
    rw [hw] at hstarts hcontinues
    exact ⟨c, w, rfl, by simpa using hstarts, fun d hd => List.all_eq_true.1 hcontinues d (List.mem_cons_of_mem _ hd)⟩

/-- A token that a text can hold. -/
def Token.Spellable : Token → Prop
  | .name word => IsName word
  | .integer value => 0 ≤ value.toInt
  | _ => True

namespace Scan

/-! ## Numbers and strings -/

/-- The value of digits is the number that they write. -/
theorem decimal_eq_ofDigitChars (ds : List Char) : decimal ds = Nat.ofDigitChars 10 ds 0 := by
  simp only [decimal, Nat.ofDigitChars, Nat.mul_comm]

theorem decimal_toDigits (n : Nat) : decimal (Nat.toDigits 10 n) = n := by
  rw [decimal_eq_ofDigitChars, Nat.ofDigitChars_ten_toDigits]

/-- An integer that is not negative is written with the digits that stand for it. -/
theorem digits_of_integer {value : Int64} (h : 0 ≤ value.toInt) : ∃ (n : Nat) (c : Char) (w : List Char),
    value.toInt = n ∧ (toString value.toInt).toList = c :: w ∧ (∀ d ∈ c :: w, d.isDigit = true) ∧ decimal (c :: w) = n := by
  obtain ⟨n, hn⟩ := Int.eq_ofNat_of_zero_le h
  have hdigits : (toString value.toInt).toList = Nat.toDigits 10 n := by
    rw [hn, ← Nat.toList_repr]
    rfl
  obtain ⟨c, w, hchars⟩ := List.exists_cons_of_ne_nil (Nat.toDigits_ne_nil (n := n) (b := 10))
  refine ⟨n, c, w, hn, hdigits.trans hchars, fun d hd => ?_, ?_⟩
  · exact Nat.isDigit_of_mem_toDigits (by decide) (by decide) (hchars ▸ hd)
  · rw [← hchars, decimal_toDigits]

theorem encode_cons (c : Char) (cs : List Char) : Quoted.encode (c :: cs) = Quoted.escape c ++ Quoted.encode cs :=
  List.flatMap_cons

theorem decode_encode (cs : List Char) : Quoted.decode (Quoted.encode cs) = some cs := by
  induction cs with
  | nil => rfl
  | cons c cs ih =>
    rw [encode_cons, Quoted.escape]
    split_ifs with hfeed htab hslash hquote
    · simp [Quoted.decode, Quoted.unescape?, ih, hfeed]
    · simp [Quoted.decode, Quoted.unescape?, ih, htab]
    · simp [Quoted.decode, Quoted.unescape?, ih, hslash]
    · simp [Quoted.decode, Quoted.unescape?, ih, hquote]
    · rw [List.singleton_append, Quoted.decode, if_neg hslash, ih, Option.map_some]
      exact fun _ _ h => absurd h hslash

theorem insideLength_encode (cs rest : List Char) :
    Quoted.insideLength (Quoted.encode cs ++ '\x22' :: rest) = some (Quoted.encode cs).length := by
  induction cs with
  | nil => rfl
  | cons c cs ih =>
    rw [encode_cons, Quoted.escape]
    split_ifs with hfeed htab hslash hquote
    · simp [Quoted.insideLength, ih]
    · simp [Quoted.insideLength, ih]
    · simp [Quoted.insideLength, ih]
    · simp [Quoted.insideLength, ih]
    · rw [List.append_assoc, List.singleton_append, insideLength_plain _ hquote hfeed hslash, ih]
      simp

/-! ## Spelled tokens -/

/-- What no token runs into. -/
def Apart (rest : List Char) : Prop := ∀ c ∈ rest.head?, CharClass.continuesName c = false ∧ c ≠ '='

theorem Apart.fixed {s : String} {c : Char} (h : s.toList.head? = some c)
    (hc : CharClass.continuesName c = false ∧ c ≠ '=') {rest : List Char} : Apart (s.toList ++ rest) := by
  rw [Apart, List.head?_append, h]
  rintro _ ⟨⟩
  exact hc

theorem wordToken_spelling (word : Keyword) : wordToken word.spelling.toList = .keyword word := by
  cases word <;> rfl

theorem keyword_chars (word : Keyword) : ∃ c w, word.spelling.toList = c :: w ∧
    CharClass.startsName c = true ∧ ∀ d ∈ w, CharClass.continuesName d = true := by
  cases word <;> exact ⟨_, _, rfl, by decide, List.all_eq_true.1 (by decide)⟩

theorem Shape.name {word : String} {rest : List Char} (h : IsName word)
    (hends : ∀ d ∈ rest.head?, CharClass.continuesName d = false) : Shape rest ⟨some (.name word), word.toList⟩ := by
  obtain ⟨c, w, hchars, hstarts, hcontinues⟩ := h.toList
  have hname : wordToken word.toList = .name word := by
    unfold wordToken
    rw [String.ofList_toList, h.2.2]
  have hshape := Shape.word c w hstarts hcontinues hends
  rwa [← hchars, hname] at hshape

/-- A token stands in its spelling. -/
theorem shape_spelling {t : Token} {rest : List Char} (h : t.Spellable) (hrest : Apart rest) :
    Shape rest ⟨some t, t.spelling.toList⟩ := by
  have hends : ∀ d ∈ rest.head?, CharClass.continuesName d = false := fun d hd => (hrest d hd).1
  cases t with
  | keyword word =>
    obtain ⟨c, w, hchars, hstarts, hcontinues⟩ := keyword_chars word
    have hshape := Shape.word c w hstarts hcontinues hends
    rwa [← hchars, wordToken_spelling] at hshape
  | symbol mark =>
    have hshape : Shape rest ⟨some (.symbol mark), mark.chars⟩ := .symbol mark fun _ h => (hrest '=' h).2 rfl
    rwa [← Symbol.toList_spelling] at hshape
  | integer value =>
    obtain ⟨n, c, w, hn, hchars, hdigit, hdecimal⟩ := digits_of_integer h
    have hlt := value.toInt_lt
    have hvalue : Int64.ofNat n = value := by rw [← Int64.ofInt_eq_ofNat, ← hn, Int64.ofInt_toInt]
    have hspelling : (Token.integer value).spelling.toList = c :: w := hchars
    have hshape : Shape rest _ := .number c w (hdigit c List.mem_cons_self)
      (fun d hd => hdigit d (List.mem_cons_of_mem _ hd)) (fun d hd => ?_) (by rw [hdecimal, maxInteger]; omega)
    · rwa [hdecimal, hvalue, ← hspelling] at hshape
    · by_contra hdigit
      have := isDigit_continues (by simpa using hdigit)
      rw [hends d hd] at this
      cases this
  | string value =>
    have hshape : Shape rest _ := .string (Quoted.encode value.toList ++ ['\x22']) _ value.toList
      (insideLength_encode value.toList []) (by simp) (by rw [List.take_left, decode_encode])
    rw [String.ofList_toList] at hshape
    have hchars : (Token.string value).spelling.toList = '\x22' :: (Quoted.encode value.toList ++ ['\x22']) :=
      String.toList_ofList
    rwa [hchars]
  | name word => exact .name h hends

/-- The tokens that are read from a text are spellable. -/
theorem Shape.spellable {x : Stretch} {rest : List Char} (h : Shape rest x) : ∀ t ∈ x.token, t.Spellable := by
  cases h with
  | blank | comment => nofun
  | string | symbol => rintro t ⟨⟩; trivial
  | number c w digit digits ends fits =>
    rintro t ⟨⟩
    show 0 ≤ (Int64.ofNat _).toInt
    rw [Int64.toInt_ofNat_of_lt (by rw [maxInteger] at fits; omega)]
    exact Int.natCast_nonneg _
  | word c w starts continues ends =>
    rintro t ⟨⟩
    unfold wordToken
    split
    · trivial
    · refine ⟨?_, ?_, ‹_›⟩
      · simpa using starts
      · rw [String.toList_ofList, List.all_cons, startsName_continues starts, Bool.true_and, List.all_eq_true]
        exact continues

theorem spellable_of_cut {xs : List Stretch} {rest : List Char} (h : Cut xs rest) :
    ∀ t ∈ xs.filterMap (·.token), t.Spellable := by
  induction xs with
  | nil => simp
  | cons x xs ih =>
    intro t ht
    rw [List.mem_filterMap] at ht
    obtain ⟨y, hy, ht⟩ := ht
    rcases List.mem_cons.1 hy with rfl | hy
    · exact h.1.shape.spellable t ht
    · exact ih h.2 t (List.mem_filterMap.2 ⟨y, hy, ht⟩)

/-! ## Texts of given tokens -/

/-- A text holds some tokens, with `rest` after it. -/
def Holds (s : String) (ts : List Token) (rest : List Char) : Prop :=
  ∃ xs, textOf xs = s.toList ∧ xs.filterMap (·.token) = ts ∧ Cut xs rest

namespace Holds

variable {s s' : String} {ts us : List Token} {rest : List Char}

theorem congr (h : Holds s ts rest) (hts : ts = us) : Holds s us rest := hts ▸ h

theorem empty : Holds "" [] rest := ⟨[], rfl, rfl, trivial⟩

theorem eq_nil (h : Holds "" ts rest) : ts = [] := by
  obtain ⟨xs, htext, rfl, hcut⟩ := h
  cases xs with
  | nil => rfl
  | cons x xs => exact absurd (List.append_eq_nil_iff.1 htext).1 hcut.1.text_ne_nil

theorem append (h : Holds s ts (s'.toList ++ rest)) (h' : Holds s' us rest) : Holds (s ++ s') (ts ++ us) rest := by
  obtain ⟨xs, hxs, rfl, hcut⟩ := h
  obtain ⟨ys, hys, rfl, hcut'⟩ := h'
  refine ⟨xs ++ ys, by rw [textOf_append, hxs, hys, String.toList_append], List.filterMap_append, cut_append.2 ⟨?_, hcut'⟩⟩
  rwa [hys]

theorem token {t : Token} (h : t.Spellable) (hrest : Apart rest) : Holds t.spelling [t] rest :=
  ⟨[⟨some t, t.spelling.toList⟩], by simp, rfl, (shape_spelling h hrest).stands, trivial⟩

theorem name {word : String} (h : IsName word) (hrest : Apart rest) : Holds word [.name word] rest :=
  token (t := .name word) h hrest

theorem literal (value : String) (hrest : Apart rest) : Holds (Quoted.literal value) [.string value] rest :=
  token (t := .string value) trivial hrest

theorem mark (mark : Symbol) (h : takesEqual mark = true → rest.head? ≠ some '=') :
    Holds mark.spelling [.symbol mark] rest := by
  refine ⟨[⟨some (.symbol mark), mark.chars⟩], ?_, rfl, (Shape.symbol mark ?_).stands, trivial⟩
  · rw [Symbol.toList_spelling]; simp
  · simpa using h

end Holds

/-! ## Fixed texts -/

inductive Bit
  | blank (c : Char)
  | word (keyword : Keyword)
  | mark (symbol : Symbol)

namespace Bit

def stretch : Bit → Stretch
  | blank c => ⟨none, [c]⟩
  | word keyword => ⟨some (.keyword keyword), keyword.spelling.toList⟩
  | mark symbol => ⟨some (.symbol symbol), symbol.chars⟩

/-- Whether a part ends a word before it. -/
def endsWord : Bit → Bool
  | blank c => isGap c
  | word _ => false
  | mark _ => true

/-- Whether parts are read as they are whatever comes after them. -/
def steady : List Bit → Bool
  | [] => true
  | blank c :: bits => isGap c && steady bits
  | word _ :: bits => bits.head?.any endsWord && steady bits
  | mark symbol :: bits => !takesEqual symbol && steady bits

theorem continues_of_endsWord {b : Bit} (h : b.endsWord = true) :
    ∃ c w, b.stretch.text = c :: w ∧ CharClass.continuesName c = false := by
  cases b with
  | blank c =>
    refine ⟨c, [], rfl, ?_⟩
    by_contra hc
    rw [endsWord, not_isGap (by simpa using hc)] at h
    cases h
  | word => cases h
  | mark symbol => cases symbol <;> exact ⟨_, _, rfl, by decide⟩

theorem cut_of_steady {bits : List Bit} (h : steady bits = true) (rest : List Char) : Cut (bits.map stretch) rest := by
  induction bits with
  | nil => trivial
  | cons b bits ih =>
    cases b with
    | blank c =>
      obtain ⟨hc, h⟩ := Bool.and_eq_true_iff.1 h
      exact ⟨(Shape.blank c hc).stands, ih h⟩
    | word keyword =>
      obtain ⟨hnext, h⟩ := Bool.and_eq_true_iff.1 h
      refine ⟨Shape.stands ?_, ih h⟩
      obtain ⟨c, w, hchars, hstarts, hcontinues⟩ := keyword_chars keyword
      have hshape : Shape (textOf (bits.map stretch) ++ rest) _ := .word c w hstarts hcontinues ?_
      · rwa [← hchars, wordToken_spelling] at hshape
      · obtain ⟨b, hb, hends⟩ := (Option.any_eq_true _ _).1 hnext
        obtain ⟨bits, rfl⟩ : ∃ bits', bits = b :: bits' := by
          rcases bits with _ | ⟨b', bits⟩ <;> cases hb
          exact ⟨bits, rfl⟩
        obtain ⟨d, v, htext, hd⟩ := continues_of_endsWord hends
        rw [List.map_cons, textOf_cons, htext]
        rintro _ ⟨⟩
        exact hd
    | mark symbol =>
      obtain ⟨htakes, h⟩ := Bool.and_eq_true_iff.1 h
      exact ⟨(Shape.symbol symbol fun h => by simp [h] at htakes).stands, ih h⟩

end Bit

/-- A fixed text holds its tokens whatever comes after it. -/
theorem Holds.fixed {s : String} {rest : List Char} (bits : List Bit) (hs : s.toList = textOf (bits.map Bit.stretch))
    (h : Bit.steady bits = true) : Holds s ((bits.map Bit.stretch).filterMap (·.token)) rest :=
  ⟨bits.map Bit.stretch, hs.symm, rfl, Bit.cut_of_steady h rest⟩

example (rest : List Char) : Holds " \x7b role: " [.symbol .openBrace, .keyword .role, .symbol .colon] rest :=
  .fixed [.blank ' ', .mark .openBrace, .blank ' ', .word .role, .mark .colon, .blank ' '] rfl rfl

end Scan

end Parley
