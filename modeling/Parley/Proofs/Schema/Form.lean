/-
S-expressions as trees of words, string literals and lists. A word ends where a character comes that
no word has, a literal at its closing mark and a list at its closing parenthesis; so no form is the
beginning of another, and a text is the text of one tree only.
-/
import Parley.Proofs.Token.Spelling
import Parley.Schema.Sexpr

namespace Parley

inductive Form
  | word (text : String)
  | literal (value : String)
  | list (parts : List Form)

namespace Form

mutual

def text : Form → String
  | .word text => text
  | .literal value => Quoted.literal value
  | .list parts => sexprList (texts parts)

def texts : List Form → List String
  | [] => []
  | form :: forms => form.text :: texts forms

end

theorem texts_eq (forms : List Form) : texts forms = forms.map text := by
  induction forms with
  | nil => rfl
  | cons form forms ih => rw [texts, ih, List.map_cons]

/-- The characters of words: all but white space, parentheses and quotation marks. -/
def plain (c : Char) : Bool := !CharClass.isBlank c && c != '(' && c != ')' && c != '\x22'

mutual

/-- Every word in the form has a character, and only plain ones. -/
def Proper : Form → Prop
  | .word text => text.toList ≠ [] ∧ ∀ c ∈ text.toList, plain c = true
  | .literal _ => True
  | .list parts => AllProper parts

def AllProper : List Form → Prop
  | [] => True
  | form :: forms => form.Proper ∧ AllProper forms

end

theorem allProper_iff {forms : List Form} : AllProper forms ↔ ∀ form ∈ forms, form.Proper := by
  induction forms with
  | nil => simp [AllProper]
  | cons form forms ih => rw [AllProper, ih, List.forall_mem_cons]

/-- For the words that are spelled out: whether they are proper can be computed. -/
theorem proper_word {w : String} (h : (!w.toList.isEmpty && w.toList.all plain) = true) : (word w).Proper := by
  simpa [Proper] using h

theorem isBlank_of_continues {c : Char} (h : CharClass.continuesName c = true) : CharClass.isBlank c = false := by
  have hrange : 48 ≤ c.toNat ∧ c.toNat ≤ 122 := by
    rcases Scan.continuesName_iff_isDigit.1 h with hstarts | hdigit
    · rcases Scan.startsName_iff_isAlpha.1 hstarts with halpha | rfl
      · have := Scan.isAlpha_iff_toNat.1 halpha
        omega
      · decide
    · have := Scan.isDigit_iff_toNat.1 hdigit
      omega
  simp only [CharClass.isBlank, CharTable.covers, CharTable.blankRanges, List.any_cons, List.any_nil, Bool.or_false,
    Bool.or_eq_false_iff, Bool.and_eq_false_iff, decide_eq_false_iff_not]
  omega

theorem plain_of_continues {c : Char} (h : CharClass.continuesName c = true) : plain c = true := by
  have hne {d : Char} (hd : CharClass.continuesName d = false) := Scan.continuesName_ne h hd
  simp [plain, isBlank_of_continues h, hne (d := '(') (by decide), hne (d := ')') (by decide), hne (d := '\x22') (by decide)]

theorem isBlank_of_plain {c : Char} (h : plain c = true) : CharClass.isBlank c = false := by
  simp only [plain, Bool.and_eq_true, Bool.not_eq_true'] at h
  exact h.1.1.1

/-! ## Reading on -/

/-- What ends a word. -/
def Stops (rest : List Char) : Prop := ∀ c ∈ rest.head?, plain c = false

/-- What ends a list of forms. -/
def Closes (rest : List Char) : Prop := ∀ c ∈ rest.head?, c = ')'

theorem Closes.stops {rest : List Char} (h : Closes rest) : Stops rest := by
  intro c hc
  rw [h c hc]
  rfl

theorem toList_literal (value : String) :
    (Form.literal value).text.toList = '\x22' :: (Quoted.encode value.toList ++ ['\x22']) := by
  rw [text]; exact String.toList_ofList

/-- Forms one after the other, each behind a separator. -/
def behind (sep : Char) (forms : List Form) : List Char := forms.flatMap fun form => sep :: form.text.toList

/-- Forms one after the other, with a separator between two of them. -/
def joined (sep : Char) : List Form → List Char
  | [] => []
  | form :: forms => form.text.toList ++ behind sep forms

theorem toList_intercalate (sep : Char) (forms : List Form) :
    ((String.singleton sep).intercalate (forms.map text)).toList = joined sep forms := by
  cases forms with
  | nil => rfl
  | cons form forms =>
    induction forms generalizing form with
    | nil => simp [joined, behind]
    | cons next forms ih =>
      rw [List.map_cons, List.map_cons, String.intercalate_cons_cons, ← List.map_cons, String.toList_append,
        String.toList_append, ih]
      simp [joined, behind]

theorem toList_list (forms : List Form) : (Form.list forms).text.toList = '(' :: (joined ' ' forms ++ [')']) := by
  have hjoined := toList_intercalate ' ' forms
  rw [text, texts_eq, sexprList, String.toList_append, String.toList_append]
  exact congrArg (fun inside => '(' :: (inside ++ [')'])) hjoined

/-! ## One tree for a text -/

/-- Where the form stands, before something that ends a word, no other form can be read. -/
def Settled (form : Form) : Prop :=
  ∀ (other : Form) (r s : List Char), other.Proper → Stops r → Stops s →
    form.text.toList ++ r = other.text.toList ++ s → form = other ∧ r = s

theorem head_ne {w v r s : List Char} {c : Char} (hne : w ≠ []) (hplain : ∀ d ∈ w, plain d = true) (hc : plain c = false)
    (h : w ++ r = c :: v ++ s) : False := by
  obtain ⟨d, w, rfl⟩ := List.exists_cons_of_ne_nil hne
  have hd := hplain d List.mem_cons_self
  rw [(List.cons.inj h).1, hc] at hd
  cases hd

theorem settled_word {w : String} (h : (word w).Proper) : (word w).Settled := by
  intro other r s hother hr hs heq
  obtain ⟨hne, hplain⟩ := h
  cases other with
  | word v =>
    have hw := Scan.takeWhile_run hplain hr
    have hv := Scan.takeWhile_run hother.2 hs
    obtain rfl : w = v := by
      rw [← String.toList_inj, ← hw, ← hv]
      exact congrArg (List.takeWhile plain) heq
    exact ⟨rfl, List.append_cancel_left heq⟩
  | literal v =>
    rw [toList_literal] at heq
    exact (head_ne hne hplain rfl heq).elim
  | list parts =>
    rw [toList_list] at heq
    exact (head_ne hne hplain rfl heq).elim

theorem settled_literal (value : String) : (literal value).Settled := by
  intro other r s hother _ _ heq
  rw [toList_literal] at heq
  cases other with
  | word v => exact (head_ne hother.1 hother.2 rfl heq.symm).elim
  | literal v =>
    rw [toList_literal] at heq
    have hinside : Quoted.encode value.toList ++ '\x22' :: r = Quoted.encode v.toList ++ '\x22' :: s := by
      simpa using heq
    -- the closing mark is found at the same place, and what is inside is decoded to one value
    have hlength := congrArg Quoted.insideLength hinside
    rw [Scan.insideLength_encode, Scan.insideLength_encode] at hlength
    obtain ⟨hencode, hrest⟩ := List.append_inj hinside (Option.some.inj hlength)
    have hvalue := congrArg Quoted.decode hencode
    rw [Scan.decode_encode, Scan.decode_encode] at hvalue
    exact ⟨congrArg literal (String.toList_inj.1 (Option.some.inj hvalue)), (List.cons.inj hrest).2⟩
  | list parts =>
    rw [toList_list] at heq
    cases heq

theorem stops_behind {sep : Char} (hsep : plain sep = false) {r : List Char} (hr : Closes r) (forms : List Form) :
    Stops (behind sep forms ++ r) := by
  cases forms with
  | nil => exact hr.stops
  | cons form forms =>
    rintro _ ⟨⟩
    exact hsep

theorem behind_cancel {sep : Char} (hsep : plain sep = false) (hopen : sep ≠ ')') {forms others : List Form} {r s : List Char}
    (hforms : ∀ form ∈ forms, form.Settled) (hothers : ∀ other ∈ others, other.Proper) (hr : Closes r) (hs : Closes s)
    (h : behind sep forms ++ r = behind sep others ++ s) : forms = others ∧ r = s := by
  induction forms generalizing others with
  | nil =>
    cases others with
    | nil => exact ⟨rfl, h⟩
    | cons other others =>
      refine absurd (hr sep ?_) hopen
      rw [show r = _ from h]
      rfl
  | cons form forms ih =>
    cases others with
    | nil =>
      refine absurd (hs sep ?_) hopen
      rw [show s = _ from h.symm]
      rfl
    | cons other others =>
      rw [List.forall_mem_cons] at hforms hothers
      have hrest : form.text.toList ++ (behind sep forms ++ r) = other.text.toList ++ (behind sep others ++ s) := by
        simpa [behind] using h
      obtain ⟨rfl, htail⟩ := hforms.1 other _ _ hothers.1 (stops_behind hsep hr forms) (stops_behind hsep hs others) hrest
      obtain ⟨rfl, rfl⟩ := ih hforms.2 hothers.2 htail
      exact ⟨rfl, rfl⟩

/-- A form is not empty and does not start with a closing parenthesis. -/
theorem not_closes {form : Form} (h : form.Proper) (rest : List Char) : ¬ Closes (form.text.toList ++ rest) := by
  intro hcloses
  cases form with
  | word w =>
    obtain ⟨c, w', hchars⟩ := List.exists_cons_of_ne_nil h.1
    have hc := h.2 c (hchars ▸ List.mem_cons_self)
    rw [text, hchars] at hcloses
    rw [hcloses c rfl] at hc
    cases hc
  | literal value =>
    rw [toList_literal] at hcloses
    cases hcloses _ rfl
  | list parts =>
    rw [toList_list] at hcloses
    cases hcloses _ rfl

/-- Joined forms can be taken apart in one way only. -/
theorem joined_cancel {sep : Char} (hsep : plain sep = false) (hopen : sep ≠ ')') {forms others : List Form} {r s : List Char}
    (hforms : ∀ form ∈ forms, form.Proper ∧ form.Settled) (hothers : ∀ other ∈ others, other.Proper) (hr : Closes r)
    (hs : Closes s) (h : joined sep forms ++ r = joined sep others ++ s) : forms = others ∧ r = s := by
  cases forms with
  | nil =>
    cases others with
    | nil => exact ⟨rfl, h⟩
    | cons other others =>
      rw [joined, joined, List.nil_append, List.append_assoc] at h
      exact absurd (h ▸ hr) (not_closes (hothers other List.mem_cons_self) _)
  | cons form forms =>
    rw [List.forall_mem_cons] at hforms
    cases others with
    | nil =>
      rw [joined, joined, List.nil_append, List.append_assoc] at h
      exact absurd (h ▸ hs) (not_closes hforms.1.1 _)
    | cons other others =>
      rw [List.forall_mem_cons] at hothers
      rw [joined, joined, List.append_assoc, List.append_assoc] at h
      obtain ⟨rfl, htail⟩ := hforms.1.2 other _ _ hothers.1 (stops_behind hsep hr forms) (stops_behind hsep hs others) h
      obtain ⟨rfl, rfl⟩ := behind_cancel hsep hopen (fun f hf => (hforms.2 f hf).2) hothers.2 hr hs htail
      exact ⟨rfl, rfl⟩

mutual

theorem settled : ∀ form : Form, form.Proper → form.Settled
  | .word _, h => settled_word h
  | .literal value, _ => settled_literal value
  | .list parts, h => by
    intro other r s hother hr hs heq
    rw [toList_list] at heq
    cases other with
    | word v => exact (head_ne hother.1 hother.2 rfl heq.symm).elim
    | literal v =>
      rw [toList_literal] at heq
      cases heq
    | list others =>
      rw [toList_list] at heq
      have hinside : joined ' ' parts ++ ')' :: r = joined ' ' others ++ ')' :: s := by simpa using heq
      have hcloses : ∀ rest, Closes (')' :: rest) := fun _ _ hc => (Option.some.inj hc).symm
      obtain ⟨rfl, hrest⟩ := joined_cancel (by decide) (by decide) (allSettled parts h) (allProper_iff.1 hother) (hcloses r)
        (hcloses s) hinside
      exact ⟨rfl, (List.cons.inj hrest).2⟩

theorem allSettled : ∀ forms : List Form, AllProper forms → ∀ form ∈ forms, form.Proper ∧ form.Settled
  | [], _ => nofun
  | form :: forms, h => List.forall_mem_cons.2 ⟨⟨h.1, settled form h.1⟩, allSettled forms h.2⟩

end

/-- Lines of proper forms are the text of one list of forms only. -/
theorem lines_injective {forms others : List Form} (hforms : ∀ form ∈ forms, form.Proper)
    (hothers : ∀ other ∈ others, other.Proper)
    (h : "\n".intercalate (forms.map text) = "\n".intercalate (others.map text)) : forms = others := by
  have hjoined : joined '\n' forms ++ [] = joined '\n' others ++ [] := by
    rw [← toList_intercalate, ← toList_intercalate]
    exact congrArg (·.toList ++ []) h
  have hcloses : Closes [] := by simp [Closes]
  have hsettled : ∀ form ∈ forms, form.Proper ∧ form.Settled := fun f hf => ⟨hforms f hf, settled f (hforms f hf)⟩
  exact (joined_cancel (by decide) (by decide) hsettled hothers hcloses hcloses hjoined).1

end Form

end Parley
