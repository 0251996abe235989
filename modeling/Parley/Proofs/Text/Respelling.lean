/-
Respelling as a normal form. A respelled name has the letters and digits of the name in their order. It follows
its convention just if the name has a letter before any digit; if it has not, no other way to write these letters
and digits follows it either. In snake case the words of a name can be read again from the respelled one, so
every convention makes the same of both, and to respell it in snake case once more changes nothing.
-/
import Parley.Proofs.Text.Casing
import Parley.Proofs.Token.Word
import Mathlib

namespace Parley.Casing

/-! ## Letters and digits -/

theorem letters_cons {c : Char} (hc : c ≠ '_') (cs : List Char) : letters (c :: cs) = c.toLower :: letters cs := by
  rw [letters, List.filter_cons_of_pos (by simpa using hc), List.map_cons, letters]

theorem letters_append (cs ds : List Char) : letters (cs ++ ds) = letters cs ++ letters ds := by
  rw [letters, List.filter_append, List.map_append, letters, letters]

section Words

variable {w : List Char} (hw : ∀ c ∈ w, isSmall c = true)

include hw

theorem letters_of_small : letters w = w := by
  induction w with
  | nil => rfl
  | cons c w ih =>
    rw [List.forall_mem_cons] at hw
    obtain ⟨-, hsame, hne⟩ := isSmall_spec hw.1
    rw [letters_cons hne, hsame, ih hw.2]

theorem letters_capitalize : letters (capitalize w) = w := by
  cases w with
  | nil => rfl
  | cons c w =>
    rw [List.forall_mem_cons] at hw
    obtain ⟨hsame, -, -, hne⟩ := toUpper_spec hw.1
    rw [capitalize, letters_cons hne, hsame, letters_of_small hw.2]

end Words

theorem letters_flatMap_capitalize {ws : List (List Char)} (hws : ∀ w ∈ ws, ∀ c ∈ w, isSmall c = true) :
    letters (ws.flatMap capitalize) = ws.flatten := by
  induction ws with
  | nil => rfl
  | cons w ws ih =>
    rw [List.forall_mem_cons] at hws
    rw [List.flatMap_cons, letters_append, letters_capitalize hws.1, ih hws.2, List.flatten_cons]

/-! ## Respelled names -/

section Respelled

variable {name : String} (hname : ∀ c ∈ name.toList, CharClass.continuesName c = true)

include hname

/-- Snake case keeps the words of a name. -/
theorem words_respell_snake : words (snake.respell name).toList = words name.toList := by
  rw [respell, String.toList_ofList, words_intercalate (forall_words hname)]

/-- It makes no difference to respell a name in snake case first. -/
theorem respell_respell_snake (casing : Casing) : casing.respell (snake.respell name) = casing.respell name := by
  have hwords := words_respell_snake hname
  cases casing with
  | upperCamel => rw [respell, hwords, respell]
  | snake => rw [respell, hwords, respell]

/-- A respelled name has the letters and digits of the name. -/
theorem letters_respell (casing : Casing) : letters (casing.respell name).toList = letters name.toList := by
  rw [← flatten_words name.toList]
  cases casing with
  | upperCamel =>
    rw [respell, String.toList_ofList, letters_flatMap_capitalize fun w hw => (forall_words hname w hw).2]
  | snake => rw [← flatten_words, words_respell_snake hname]

end Respelled

/-! ## Names that a convention accepts -/

theorem leadsWithLetter_iff_letters {cs : List Char} : LeadsWithLetter cs ↔ ∃ c ∈ (letters cs).head?, c.isAlpha = true := by
  rw [letters, List.head?_map, List.head?_filter]
  constructor
  · rintro ⟨c, hc, halpha⟩
    exact ⟨c.toLower, Option.mem_map_of_mem _ hc, by rwa [Char.isAlpha_toLower_eq_isAlpha]⟩
  · rintro ⟨d, hd, halpha⟩
    obtain ⟨c, hc, rfl⟩ := Option.mem_map.1 hd
    exact ⟨c, hc, by rwa [Char.isAlpha_toLower_eq_isAlpha] at halpha⟩

theorem leadsWithLetter_of_accepts {casing : Casing} {name : String} (h : casing.accepts name = true) :
    LeadsWithLetter name.toList := by
  cases casing with
  | upperCamel =>
    obtain ⟨c, hc, hupper⟩ := (Option.any_eq_true _ _).1 (Bool.and_eq_true_iff.1 h).1
    obtain ⟨cs, hcs⟩ := List.head?_eq_some_iff.1 hc
    refine ⟨c, ?_, Bool.or_eq_true_iff.2 (.inl hupper)⟩
    rw [hcs, List.find?_cons_of_pos (by simpa using (isUpper_spec hupper).2)]
    rfl
  | snake =>
    obtain ⟨c, hc, hlower⟩ := (Option.any_eq_true _ _).1 (Bool.and_eq_true_iff.1 (Bool.and_eq_true_iff.1 h).1).1
    refine ⟨c, ?_, Bool.or_eq_true_iff.2 (.inr hlower)⟩
    have hsame : (fun d : Char => decide (d ≠ '_')) = fun d => !(d == '_') := funext fun d => decide_not
    rw [hsame, List.find?_not_eq_head?_dropWhile]
    exact hc

/-- A respelled name follows its convention just if the first character of the name other than an underscore is a
letter. It has the letters and digits of the name, and follows the convention if any text that has them does. To
respell a name in snake case twice is to respell it once. -/
theorem respelling_succeeds_iff {name : String} (h : IsWord name) :
    (∀ casing : Casing, (casing.accepts (casing.respell name) = true ↔ LeadsWithLetter name.toList) ∧
      letters (casing.respell name).toList = letters name.toList ∧
      ∀ spelling : String, casing.accepts spelling = true → letters spelling.toList = letters name.toList →
        casing.accepts (casing.respell name) = true) ∧
    snake.respell (snake.respell name) = snake.respell name := by
  have hchars := h.continues
  refine ⟨fun casing => ⟨accepts_respell hchars casing, letters_respell hchars casing, ?_⟩,
    respell_respell_snake hchars .snake⟩
  intro spelling haccepts hletters
  have hleads := leadsWithLetter_of_accepts haccepts
  rw [leadsWithLetter_iff_letters, hletters, ← leadsWithLetter_iff_letters] at hleads
  exact (accepts_respell hchars casing).2 hleads

/-- Underscores around a name, two of them within, and capitals in a row. -/
theorem respelling_of_fetchHTTPBody :
    let name := "__fetchHTTP__Body2_"
    IsWord name ∧ LeadsWithLetter name.toList ∧
      snake.respell name = "fetch_http_body2" ∧ snake.respell "fetch_http_body2" = "fetch_http_body2" ∧
      upperCamel.respell name = "FetchHttpBody2" ∧ upperCamel.accepts "FetchHttpBody2" = true ∧
      snake.accepts "_fetchhttp_body2" = true ∧ letters "_fetchhttp_body2".toList = letters name.toList ∧
      snake.accepts "fetch_http_body2" = true := by
  intro name
  have hword : IsWord name := (isName_iff.1 (by decide)).1
  have hleads : LeadsWithLetter name.toList := ⟨'f', by decide, by decide⟩
  have hsnake : snake.respell name = "fetch_http_body2" := by decide
  have hcamel : upperCamel.respell name = "FetchHttpBody2" := by decide
  have hother : snake.accepts "_fetchhttp_body2" = true := by decide
  have hletters : letters "_fetchhttp_body2".toList = letters name.toList := by decide
  obtain ⟨hcasings, hagain⟩ := respelling_succeeds_iff hword
  have hcamelAccepted := (hcasings .upperCamel).1.2 hleads
  have hsnakeAccepted := (hcasings .snake).2.2 _ hother hletters
  rw [hcamel] at hcamelAccepted
  rw [hsnake] at hsnakeAccepted hagain
  exact ⟨hword, hleads, hsnake, hagain, hcamel, hcamelAccepted, hother, hletters, hsnakeAccepted⟩

/-- A digit comes first, so neither convention can be followed. -/
example : [upperCamel, snake].map (fun casing => casing.accepts (casing.respell "_2ndBuyer")) = [false, false] := by decide

end Parley.Casing
