/-
What a passing case says of its input. An S-expression with white space collapsed is one with a space
between its forms and with the white space of its literals squeezed; it can be taken apart in one way
only. So inputs that pass with one expectation differ, spans aside, in the white space of their texts
at most: a run of white space there, line feeds and tabs excepted, counts as one space.
-/
import Parley.Golden.Run
import Parley.Proofs.Schema.Texts
import Parley.Proofs.Text.Squeeze

namespace Parley

open Lines

/-! ## Forms with white space collapsed -/

namespace Form

mutual

/-- In a form just the literals are squeezed, and what comes after it is squeezed by itself. -/
theorem squeezeFrom_text : ∀ form : Form, form.Proper → ∀ (inside : Bool) (rest : List Char),
    squeezeFrom CharClass.isBlank inside (form.text.toList ++ rest) =
      (form.mapLiterals Quoted.squeezed).text.toList ++ squeezeFrom CharClass.isBlank false rest
  | .word w, h, inside, rest => squeezeFrom_append h.1 (fun c hc => isBlank_of_plain (h.2 c hc)) inside rest
  | .literal value, _, inside, rest => by
    rw [mapLiterals, toList_literal, toList_literal, List.cons_append, squeezeFrom_cons (by decide), List.append_assoc,
      List.singleton_append, Quoted.squeezeFrom_encode, Quoted.squeezed, String.toList_ofList]
    simp
  | .list [], _, inside, rest => by
    rw [mapLiterals, mapAll, toList_list, joined, List.nil_append, List.cons_append, squeezeFrom_cons (by decide),
      List.singleton_append, squeezeFrom_cons (by decide)]
    rfl
  | .list (form :: forms), h, inside, rest => by
    rw [mapLiterals, mapAll, toList_list, toList_list, joined, joined, List.cons_append, squeezeFrom_cons (by decide)]
    simp only [List.append_assoc]
    rw [squeezeFrom_text form h.1, squeezeFrom_behind (by decide) forms h.2, List.singleton_append, squeezeFrom_cons (by decide)]
    simp

theorem squeezeFrom_behind {sep : Char} (hsep : CharClass.isBlank sep = true) : ∀ forms : List Form, AllProper forms →
    ∀ rest : List Char, squeezeFrom CharClass.isBlank false (behind sep forms ++ rest) =
      behind ' ' (mapAll Quoted.squeezed forms) ++ squeezeFrom CharClass.isBlank false rest
  | [], _, _ => rfl
  | form :: forms, h, rest => by
    have hcons : ∀ (sep : Char) (form : Form) (forms : List Form),
        behind sep (form :: forms) = sep :: (form.text.toList ++ behind sep forms) := fun _ _ _ => rfl
    rw [mapAll, hcons, hcons, List.cons_append, List.append_assoc, squeezeFrom_outside hsep, squeezeFrom_text form h.1,
      squeezeFrom_behind hsep forms h.2]
    simp

end

/-! ### Ends -/

/-- A form does not end in white space. -/
theorem isBlank_of_last {form : Form} (h : form.Proper) : ∀ c ∈ form.text.toList.getLast?, CharClass.isBlank c = false := by
  intro c hc
  cases form with
  | word w => exact isBlank_of_plain (h.2 c (List.mem_of_getLast? hc))
  | literal value =>
    rw [toList_literal, ← List.cons_append, List.getLast?_concat] at hc
    cases hc
    decide
  | list parts =>
    rw [toList_list, ← List.cons_append, List.getLast?_concat] at hc
    cases hc
    decide

theorem text_ne_nil {form : Form} (h : form.Proper) : form.text.toList ≠ [] := by
  cases form with
  | word w => exact h.1
  | literal value => rw [toList_literal]; exact List.cons_ne_nil _ _
  | list parts => rw [toList_list]; exact List.cons_ne_nil _ _

theorem isBlank_of_last_joined {sep : Char} : ∀ {forms : List Form}, AllProper forms →
    ∀ c ∈ (joined sep forms).getLast?, CharClass.isBlank c = false
  | [], _, c, hc => by cases hc
  | [form], h, c, hc => isBlank_of_last h.1 c (by simpa [joined, behind] using hc)
  | form :: next :: forms, h, c, hc => by
    have hmore : joined sep (form :: next :: forms) = (form.text.toList ++ [sep]) ++ joined sep (next :: forms) := by
      simp [joined, behind]
    have hne : joined sep (next :: forms) ≠ [] := List.append_ne_nil_of_left_ne_nil (text_ne_nil h.2.1) _
    rw [hmore, List.getLast?_append_of_ne_nil _ hne] at hc
    exact isBlank_of_last_joined h.2 c hc

/-- Joined forms are collapsed to the forms with their literals squeezed, joined by spaces. -/
theorem collapse_joined {sep : Char} (hsep : CharClass.isBlank sep = true) {forms : List Form} (h : AllProper forms) :
    collapse (joined sep forms) = joined ' ' (forms.map (mapLiterals Quoted.squeezed)) := by
  rw [collapse_eq (isBlank_of_last_joined h), ← mapAll_eq]
  cases forms with
  | nil => rfl
  | cons form forms =>
    have hrest := squeezeFrom_behind hsep forms h.2 []
    rw [List.append_nil] at hrest
    rw [joined, squeezeFrom_text form h.1, hrest, mapAll, joined]
    simp [squeezeFrom]

end Form

/-! ## Schemas -/

namespace Schema

theorem collapse_sexpr {s : Schema} (h : ∀ tx ∈ s.transactions, tx.WellFormed) : collapse s.sexpr.toList =
    Form.joined ' ' ((s.transactions.map Transaction.form).map (Form.mapLiterals Quoted.squeezed)) := by
  have hproper : Form.AllProper (s.transactions.map Transaction.form) :=
    Form.allProper_map fun tx htx => Transaction.proper_form (h tx htx)
  have htext : s.sexpr.toList = Form.joined '\n' (s.transactions.map Transaction.form) := by
    rw [sexpr_eq]
    exact Form.toList_intercalate '\n' _
  rw [htext, Form.collapse_joined (by decide) hproper]

/-- Collapsed S-expressions are the same exactly when the schemas are, up to white space in their texts. -/
theorem collapse_sexpr_eq_iff {a b : Schema} (ha : ∀ tx ∈ a.transactions, tx.WellFormed)
    (hb : ∀ tx ∈ b.transactions, tx.WellFormed) : collapse a.sexpr.toList = collapse b.sexpr.toList ↔
      (a.mapTexts Quoted.squeezed).bare = (b.mapTexts Quoted.squeezed).bare := by
  rw [collapse_sexpr ha, collapse_sexpr hb, bare_mapTexts_eq_iff ha hb]
  have hproper : ∀ s : Schema, (∀ tx ∈ s.transactions, tx.WellFormed) →
      ∀ form ∈ (s.transactions.map Transaction.form).map (Form.mapLiterals Quoted.squeezed), form.Proper := by
    intro s hs
    refine List.forall_mem_map.2 (List.forall_mem_map.2 fun tx htx => ?_)
    exact Form.proper_mapLiterals _ (Transaction.proper_form (hs tx htx))
  constructor
  · intro h
    have hcloses : Form.Closes [] := by simp [Form.Closes]
    have hsettled := fun form hform => And.intro (hproper a ha form hform) (Form.settled form (hproper a ha form hform))
    have h' := congrArg (· ++ []) h
    exact (Form.joined_cancel (by decide) (by decide) hsettled (hproper b hb) hcloses hcloses h').1
  · exact fun h => by rw [h]

end Schema

/-! ## Cases -/

namespace Golden

theorem Case.run_eq_pass_iff {c : Case} : c.run = .pass ↔ c.skip = none ∧ c.expected.isMet (parse c.input) = true := by
  unfold run
  cases c.skip with
  | some reason => simp
  | none =>
    dsimp only
    split <;> simp_all

/-- A case with a schema passes exactly when its expectation is the S-expression, with white space collapsed. -/
theorem Case.pass_iff_collapse {c : Case} {s : Schema} {text : String} (hexpected : c.expected = .sexpr text)
    (hparse : parse c.input = .ok s) : c.run = .pass ↔ c.skip = none ∧ collapse s.sexpr.toList = collapse text.toList := by
  rw [run_eq_pass_iff, hexpected, hparse, Expected.isMet, beq_iff_eq]

/-- Cases with one expectation whose inputs are schemas pass both only if the schemas are the same up to
spans and the white space in their texts, and then the one passes when the other does. Each input passes
with the S-expression of its schema. -/
theorem pass_pins_schema {c c' : Case} {s s' : Schema} {text : String} (hexpected : c.expected = .sexpr text)
    (hexpected' : c'.expected = .sexpr text) (hparse : parse c.input = .ok s) (hparse' : parse c'.input = .ok s') :
    (c.run = .pass ∧ c'.run = .pass → (s.mapTexts Quoted.squeezed).bare = (s'.mapTexts Quoted.squeezed).bare) ∧
      ((s.mapTexts Quoted.squeezed).bare = (s'.mapTexts Quoted.squeezed).bare → c.skip = c'.skip →
        (c.run = .pass ↔ c'.run = .pass)) ∧
      (c.skip = none → ({ c with expected := .sexpr s.sexpr } : Case).run = .pass) := by
  rw [Case.pass_iff_collapse hexpected hparse, Case.pass_iff_collapse hexpected' hparse',
    ← Schema.collapse_sexpr_eq_iff (wellFormed_of_parse hparse).2 (wellFormed_of_parse hparse').2]
  refine ⟨?_, ?_, ?_⟩
  · rintro ⟨⟨-, hmet⟩, -, hmet'⟩
    rw [hmet, hmet']
  · intro hsame hskip
    rw [hsame, hskip]
  · intro hskip
    have hown : ({ c with expected := .sexpr s.sexpr } : Case).expected = .sexpr s.sexpr := rfl
    exact (Case.pass_iff_collapse hown hparse).2 ⟨hskip, rfl⟩

/-- The schema of `T` with a description and nothing else. -/
def described (description : String) : Schema := ⟨[⟨"T", some description, [], [], [], [], ⟨12, 1, 1, 13⟩⟩]⟩

/-- A case that expects the description `a b`, on a line of its own. -/
def expectingSpace (input : String) : Case := ⟨"described", 1, input, .sexpr "(transaction T\n  \"a b\")", none⟩

theorem parse_space : parse "transaction T \"a b\" \x7b\x7d" = .ok (described "a b") := by cbv

theorem run_space : (expectingSpace "transaction T \"a b\" \x7b\x7d").run = .pass := by cbv

/-- The case passes with `a b` and hence not with `ab`. -/
theorem pass_without_space : (expectingSpace "transaction T \"a b\" \x7b\x7d").run = .pass ∧
    (expectingSpace "transaction T \"ab\" \x7b\x7d").run ≠ .pass := by
  have hparse : parse "transaction T \"ab\" \x7b\x7d" = .ok (described "ab") := by cbv
  have hpins := @pass_pins_schema (expectingSpace "transaction T \"a b\" \x7b\x7d")
    (expectingSpace "transaction T \"ab\" \x7b\x7d") _ _ _ rfl rfl parse_space hparse
  refine ⟨run_space, fun hrun => ?_⟩
  have hbare := hpins.1 ⟨run_space, hrun⟩
  exact absurd (congrArg (fun s => s.transactions.map (·.description)) hbare) (by decide)

/-- It passes with two spaces as well, which is another description. -/
theorem pass_of_wider_space : (∃ s s', parse "transaction T \"a b\" \x7b\x7d" = .ok s ∧
      parse "transaction T \"a  b\" \x7b\x7d" = .ok s' ∧ s.bare ≠ s'.bare) ∧
    (expectingSpace "transaction T \"a b\" \x7b\x7d").run = .pass ∧
    (expectingSpace "transaction T \"a  b\" \x7b\x7d").run = .pass := by
  have hparse : parse "transaction T \"a  b\" \x7b\x7d" = .ok (described "a  b") := by cbv
  have hrun : (expectingSpace "transaction T \"a  b\" \x7b\x7d").run = .pass := by cbv
  refine ⟨⟨_, _, parse_space, hparse, fun hbare => ?_⟩, run_space, hrun⟩
  exact absurd (congrArg (fun s => s.transactions.map (·.description)) hbare) (by decide)

end Golden

end Parley
