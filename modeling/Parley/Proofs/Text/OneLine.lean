/-
Texts on one line. A text that holds no line feed and no carriage return is one line, and so is what is
put together from such texts. Numbers and names are, and whatever is shown with escapes.
-/
import Parley.Proofs.Token.Spelling
import Parley.Proofs.Text.Lines
import Mathlib

namespace Parley

/-- A text without line feeds and carriage returns. -/
def OneLine (text : String) : Prop := '\n' ∉ text.toList ∧ '\r' ∉ text.toList

instance (text : String) : Decidable (OneLine text) := inferInstanceAs (Decidable (_ ∧ _))

/-- A character that stays on its line. -/
def StaysOnLine (c : Char) : Prop := c ≠ '\n' ∧ c ≠ '\r'

instance (c : Char) : Decidable (StaysOnLine c) := inferInstanceAs (Decidable (_ ∧ _))

namespace OneLine

theorem iff_forall {text : String} : OneLine text ↔ ∀ c ∈ text.toList, StaysOnLine c := by
  constructor
  · rintro ⟨hfeed, hreturn⟩ c hc
    exact ⟨fun h => hfeed (h ▸ hc), fun h => hreturn (h ▸ hc)⟩
  · intro h
    exact ⟨fun hfeed => (h _ hfeed).1 rfl, fun hreturn => (h _ hreturn).2 rfl⟩

theorem ofList {cs : List Char} (h : ∀ c ∈ cs, StaysOnLine c) : OneLine (String.ofList cs) :=
  iff_forall.2 (by rwa [String.toList_ofList])

@[simp] theorem append_iff {a b : String} : OneLine (a ++ b) ↔ OneLine a ∧ OneLine b := by
  simp only [iff_forall, String.toList_append, List.forall_mem_append]

theorem append {a b : String} (ha : OneLine a) (hb : OneLine b) : OneLine (a ++ b) := append_iff.2 ⟨ha, hb⟩

/-- Texts put together with others between them are one line if all of them are. -/
theorem intercalate {separator : String} {parts : List String} (hseparator : OneLine separator)
    (hparts : ∀ part ∈ parts, OneLine part) : OneLine (separator.intercalate parts) := by
  have hall : ∀ l ∈ parts.map String.toList, ∀ c ∈ l, StaysOnLine c :=
    List.forall_mem_map.2 fun part hpart => iff_forall.1 (hparts part hpart)
  rw [iff_forall] at hseparator ⊢
  rw [String.toList_intercalate]
  generalize parts.map String.toList = ls at hall
  induction ls with
  | nil => simp
  | cons l ls ih =>
    obtain ⟨hl, hls⟩ := List.forall_mem_cons.1 hall
    cases ls with
    | nil => simpa using hl
    | cons l' ls =>
      rw [List.intercalate_cons_cons]
      exact List.forall_mem_append.2 ⟨List.forall_mem_append.2 ⟨hl, hseparator⟩, ih hls⟩

/-! ## Numbers -/

/-- No digit breaks a line, whatever the base. -/
theorem digits {base : Nat} (hbase : 1 < base) (n : Nat) : ∀ c ∈ Nat.toDigits base n, StaysOnLine c := by
  have hdigit : ∀ d : Nat, StaysOnLine d.digitChar := fun d =>
    ⟨Nat.digitChar_ne '\n' (by decide), Nat.digitChar_ne '\r' (by decide)⟩
  induction n using Nat.strong_induction_on with
  | _ n ih =>
    rw [Nat.toDigits_eq_if hbase]
    split
    · exact List.forall_mem_singleton.2 (hdigit n)
    · have hlt : n / base < n := Nat.div_lt_self (by omega) hbase
      exact List.forall_mem_append.2 ⟨ih _ hlt, List.forall_mem_singleton.2 (hdigit _)⟩

theorem nat (n : Nat) : OneLine (toString n) := by
  rw [iff_forall]
  show ∀ c ∈ n.repr.toList, _
  rw [Nat.toList_repr]
  exact digits (by decide) n

theorem place (span : Span) : OneLine span.place :=
  append (append (nat _) (by decide)) (nat _)

/-! ## Names and what is shown with escapes -/

theorem of_continues {text : String} (h : text.toList.all CharClass.continuesName = true) : OneLine text := by
  constructor
  · exact fun hfeed => absurd (List.all_eq_true.1 h _ hfeed) (by decide)
  · exact fun hreturn => absurd (List.all_eq_true.1 h _ hreturn) (by decide)

theorem of_isName {word : String} (h : IsName word) : OneLine word := of_continues h.2.1

/-- A character is shown by characters that break no line, since those that would are written as escapes. -/
theorem escapedChar {mark : Char} (hmark : StaysOnLine mark) (c : Char) : ∀ d ∈ Escaped.char mark c, StaysOnLine d := by
  have hpair {d : Char} (hd : StaysOnLine d) : ∀ e ∈ ['\\', d], StaysOnLine e :=
    List.forall_mem_cons.2 ⟨by decide, List.forall_mem_singleton.2 hd⟩
  unfold Escaped.char
  split_ifs with hnull htab hreturn hfeed hbackslash hquote hinvisible
  · exact hpair (by decide)
  · exact hpair (by decide)
  · exact hpair (by decide)
  · exact hpair (by decide)
  · exact hpair (by decide)
  · exact hpair hmark
  · refine List.forall_mem_cons.2 ⟨by decide, List.forall_mem_cons.2 ⟨by decide, List.forall_mem_cons.2 ⟨by decide, ?_⟩⟩⟩
    exact List.forall_mem_append.2 ⟨digits (by decide) c.toNat, List.forall_mem_singleton.2 (by decide)⟩
  · exact List.forall_mem_singleton.2 ⟨hfeed, hreturn⟩

theorem escaped {mark : Char} (hmark : StaysOnLine mark) (cs : List Char) : OneLine (Escaped.between mark cs) := by
  refine ofList (List.forall_mem_append.2 ⟨List.forall_mem_cons.2 ⟨hmark, ?_⟩, List.forall_mem_singleton.2 hmark⟩)
  intro d hd
  obtain ⟨c, -, hd⟩ := List.mem_flatMap.1 hd
  exact escapedChar hmark c d hd

/-- A token that a text can hold is shown on one line, also a string that holds line feeds. -/
theorem display {t : Token} (h : t.Spellable) : OneLine t.display := by
  cases t with
  | keyword word => cases word <;> decide
  | symbol mark => cases mark <;> decide
  | integer value =>
    obtain ⟨n, c, w, hn, hchars, -, -⟩ := Scan.digits_of_integer h
    show OneLine (toString value.toInt)
    rw [hn]
    exact nat n
  | string value => exact escaped (by decide) _
  | name word => exact of_isName h

end OneLine

/-- Texts on one line each, written one below the other, fill as many lines as there are. -/
theorem Lines.count_unlines {lines : List String} (h : ∀ line ∈ lines, OneLine line) :
    (Lines.unlines lines).toList.count '\n' = lines.length := by
  induction lines with
  | nil => rfl
  | cons line lines ih =>
    obtain ⟨hline, hlines⟩ := List.forall_mem_cons.1 h
    have hnone : line.toList.count '\n' = 0 := List.count_eq_zero_of_not_mem hline.1
    rw [toList_unlines_cons, List.count_append, hnone, List.count_cons_self, ih hlines, List.length_cons, Nat.zero_add]

end Parley
