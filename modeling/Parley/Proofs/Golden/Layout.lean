/-
Cases as they are written. A case is laid out with comments before it, its directives, its input and its
expectation behind a mark each, and the mark that ends it. What is read from such a text are the cases
that were written, so no line of one is taken for a line of another.
-/
import Parley.Proofs.Golden.Headers
import Parley.Proofs.Text.Lines
import Mathlib

namespace Parley.Golden

/-! ## Writing -/

/-- A case to be written, with the lines before it. -/
structure Block where
  comments : List String
  name : String
  expected : Expected
  skip : Option String
  input : String
deriving DecidableEq, Repr

def Expected.mode : Expected → String
  | sexpr _ => "ok"
  | errorContaining _ => "error"

def Expected.text : Expected → String
  | sexpr text => text
  | errorContaining fragment => fragment

namespace Block

variable (b : Block)

def directives : List String :=
  ["# test: " ++ b.name, "# expect: " ++ b.expected.mode] ++ (b.skip.map ("# skip: " ++ ·)).toList

def parts : List String := b.comments ++ b.directives ++ ["---", b.input, "---", b.expected.text, "==="]

/-- The case that is read when its header is on a line. -/
def case (line : Nat) : Case := ⟨b.name, line, b.input, b.expected, b.skip⟩

end Block

/-- Cases with the lines before each of them and those behind the last. -/
def layout (blocks : List Block) (closing : List String) : String :=
  Lines.unlines (blocks.flatMap Block.parts ++ closing)

def feeds (text : String) : Nat := text.toList.count '\n'

/-- The cases that are written from a line on, each with the line that its header is on. -/
def casesAt (line : Nat) : List Block → List Case
  | [] => []
  | b :: blocks =>
    b.case (line + feeds (Lines.unlines b.comments)) :: casesAt (line + feeds (Lines.unlines b.parts)) blocks

/-- A line between cases: trimmed, it does not start as a header does. -/
def IsComment (part : String) : Prop := '\n' ∉ part.toList ∧ title? part.toList = none

instance (part : String) : Decidable (IsComment part) := inferInstanceAs (Decidable (_ ∧ _))

/-- A trimmed text on one line. -/
def IsTitle (text : String) : Prop := '\n' ∉ text.toList ∧ Lines.trim text.toList = text.toList

instance (text : String) : Decidable (IsTitle text) := inferInstanceAs (Decidable (_ ∧ _))

/-- A text that is kept as it is up to a mark. -/
def EndsAt (mark text : String) : Prop :=
  '\r' ∉ text.toList ∧ ∀ line ∈ Lines.splitAtFeeds text.toList, Lines.trim line ≠ mark.toList

instance (mark text : String) : Decidable (EndsAt mark text) := inferInstanceAs (Decidable (_ ∧ _))

structure Block.Fits (b : Block) : Prop where
  comments : ∀ part ∈ b.comments, IsComment part
  name : IsTitle b.name
  skip : ∀ reason ∈ b.skip, IsTitle reason
  input : EndsAt "---" b.input
  expected : EndsAt "===" b.expected.text
  trimmed : Lines.trim b.expected.text.toList = b.expected.text.toList

instance (b : Block) : Decidable b.Fits :=
  decidable_of_iff
    ((∀ part ∈ b.comments, IsComment part) ∧ IsTitle b.name ∧ (∀ reason ∈ b.skip, IsTitle reason) ∧
      EndsAt "---" b.input ∧ EndsAt "===" b.expected.text ∧
      Lines.trim b.expected.text.toList = b.expected.text.toList)
    ⟨fun ⟨comments, name, skip, input, expected, trimmed⟩ => ⟨comments, name, skip, input, expected, trimmed⟩,
      fun h => ⟨h.comments, h.name, h.skip, h.input, h.expected, h.trimmed⟩⟩

/-! ## Reading line by line -/

/-- Lines that are read from a stage finish some cases and leave another stage, whatever is behind them. -/
def Leads (stage : Stage) (number : Nat) (lines : List (List Char)) (done : List Case) (next : Stage) : Prop :=
  ∀ rest, casesFrom stage number (lines ++ rest) = done ++ casesFrom next (number + lines.length) rest

variable {stage next last : Stage} {number : Nat} {lines more : List (List Char)} {done later : List Case}

theorem Leads.nil : Leads stage number [] [] stage := fun _ => rfl

theorem Leads.append (h : Leads stage number lines done next)
    (hmore : Leads next (number + lines.length) more later last) :
    Leads stage number (lines ++ more) (done ++ later) last := by
  intro rest
  rw [List.append_assoc, h, hmore, List.length_append, List.append_assoc, Nat.add_assoc]

theorem leads_line {line : List Char} {case? : Option Case} (h : stage.step number line = (next, case?)) :
    Leads stage number [line] case?.toList next := by
  intro rest
  rw [List.singleton_append, casesFrom, h]
  rfl

theorem continues_extend {line line' : List Char} : (stage.extend line).Continues line' ↔ stage.Continues line' := by
  rw [Stage.Continues, Stage.awaited_extend, Stage.Continues]

theorem leads_of_continues (stage : Stage) (number : Nat) (h : ∀ line ∈ lines, stage.Continues line) :
    Leads stage number lines [] (lines.foldl Stage.extend stage) := by
  induction lines generalizing stage number with
  | nil => exact .nil
  | cons line lines ih =>
    have hline := leads_line (Stage.step_of_continues number (h line List.mem_cons_self))
    exact hline.append (ih _ _ fun line' hmem => continues_extend.2 (h line' (List.mem_cons_of_mem _ hmem)))

/-! ## Reading a case -/

theorem foldl_extend_between (lines : List (List Char)) : lines.foldl Stage.extend .between = .between := by
  induction lines with
  | nil => rfl
  | cons line lines ih => exact ih

theorem foldl_extend_input (head : Header) (kept lines : List (List Char)) :
    lines.foldl Stage.extend (.input head kept) = .input head (kept ++ lines) := by
  induction lines generalizing kept with
  | nil => rw [List.append_nil]; rfl
  | cons line lines ih =>
    rw [List.foldl_cons, Stage.extend, ih, List.append_assoc]
    rfl

theorem foldl_extend_expected (head : Header) (source kept lines : List (List Char)) :
    lines.foldl Stage.extend (.expected head source kept) = .expected head source (kept ++ lines) := by
  induction lines generalizing kept with
  | nil => rw [List.append_nil]; rfl
  | cons line lines ih =>
    rw [List.foldl_cons, Stage.extend, ih, List.append_assoc]
    rfl

theorem IsComment.continues {part : String} (h : IsComment part) :
    ∀ line ∈ Lines.ofPart part, Stage.between.Continues line := by
  obtain ⟨hsingle, htitle⟩ := h
  intro line hline
  rw [Lines.ofPart_of_single hsingle, List.mem_singleton] at hline
  show title? line = none
  rwa [hline, title?, Lines.trim_dropReturn]

theorem leads_comments (number : Nat) {comments : List String} (h : ∀ part ∈ comments, IsComment part) :
    Leads .between number (comments.flatMap Lines.ofPart) [] .between := by
  have hcontinues : ∀ line ∈ comments.flatMap Lines.ofPart, Stage.between.Continues line := by
    intro line hline
    obtain ⟨part, hpart, hline⟩ := List.mem_flatMap.1 hline
    exact (h part hpart).continues line hline
  have hlines := leads_of_continues .between number hcontinues
  rwa [foldl_extend_between] at hlines

/-- A directive fills one line, and its text is found behind its opening when the line is trimmed. -/
theorem exists_directive (part : String) (opening : List Char) {text : String}
    (hpart : part.toList = opening ++ ' ' :: text.toList) (hopening : Lines.trim opening = opening)
    (hne : opening ≠ []) (hsingle : '\n' ∉ opening) (htext : IsTitle text) :
    ∃ line rest, Lines.ofPart part = [line] ∧ Lines.trim line = opening ++ rest ∧ Lines.trim rest = text.toList := by
  obtain ⟨hfeed, htrimmed⟩ := htext
  obtain ⟨rest, htrim, hrest⟩ := Lines.exists_trim_eq hopening hne htrimmed
  refine ⟨Lines.dropReturn part.toList, rest, Lines.ofPart_of_single ?_, ?_, hrest⟩
  · simp [hpart, hsingle, hfeed]
  · rw [Lines.trim_dropReturn, hpart, htrim]

theorem after?_append (opening rest : List Char) : Lines.after? opening (opening ++ rest) = some rest := by
  simp [Lines.after?]

theorem leads_test (number : Nat) {name : String} (h : IsTitle name) :
    Leads .between number (Lines.ofPart ("# test: " ++ name)) [] (.header ⟨name, number, true, none⟩) := by
  obtain ⟨line, rest, hpart, htrim, hrest⟩ :=
    exists_directive ("# test: " ++ name) "# test:".toList (by simp) (by decide) (by decide) (by decide) h
  rw [hpart]
  refine leads_line (Stage.step_between number ?_)
  rw [title?, htrim, after?_append, Option.map_some, hrest, String.ofList_toList]

/-- A line that does not end the header is read into it. -/
theorem leads_header {head head' : Header} {line : List Char} (hmark : Lines.trim line ≠ "---".toList)
    (hread : head.read (Lines.trim line) = head') : Leads (.header head) number [line] [] (.header head') := by
  have hline : (Stage.header head).Continues line := hmark
  have hstep : (Stage.header head).step number line = (.header head', none) := by
    rw [Stage.step_of_continues number hline, Stage.extend, hread]
  exact leads_line hstep

theorem Expected.isTitle_mode (expected : Expected) : IsTitle expected.mode := by
  cases expected with
  | sexpr text => exact (by decide : IsTitle "ok")
  | errorContaining fragment => exact (by decide : IsTitle "error")

/-- A directive is read into the header by what is behind its opening. -/
theorem leads_directive {head head' : Header} {part text : String} (opening : List Char)
    (hpart : part.toList = opening ++ ' ' :: text.toList) (hopening : Lines.trim opening = opening)
    (hstart : opening.head? = some '#') (hsingle : '\n' ∉ opening) (htext : IsTitle text)
    (hread : ∀ rest, Lines.trim rest = text.toList → head.read (opening ++ rest) = head') :
    Leads (.header head) number (Lines.ofPart part) [] (.header head') := by
  have hne : opening ≠ [] := by
    rintro rfl
    cases hstart
  obtain ⟨line, rest, hline, htrim, hrest⟩ := exists_directive part opening hpart hopening hne hsingle htext
  rw [hline]
  refine leads_header ?_ ?_
  · rw [htrim]
    intro hmark
    have hhead := congrArg List.head? hmark
    rw [List.head?_append, hstart, Option.some_or] at hhead
    exact absurd hhead (by decide)
  · rw [htrim, hread rest hrest]

theorem leads_expect (head : Header) (expected : Expected) :
    Leads (.header head) number (Lines.ofPart ("# expect: " ++ expected.mode)) []
      (.header { head with valid := expected.mode.toList == "ok".toList }) := by
  refine leads_directive "# expect:".toList (by simp) (by decide) rfl (by decide) expected.isTitle_mode fun rest hrest => ?_
  rw [Header.read, after?_append]
  simp only [hrest]

theorem leads_skip (head : Header) {reason : String} (h : IsTitle reason) :
    Leads (.header head) number (Lines.ofPart ("# skip: " ++ reason)) [] (.header { head with skip := some reason }) := by
  refine leads_directive "# skip:".toList (by simp) (by decide) rfl (by decide) h fun rest hrest => ?_
  have hother : Lines.after? "# expect:".toList ("# skip:".toList ++ rest) = none := rfl
  rw [Header.read, hother, after?_append]
  simp only [hrest, String.ofList_toList]

theorem leads_directives {b : Block} (h : b.Fits) :
    Leads .between number (b.directives.flatMap Lines.ofPart) []
      (.header ⟨b.name, number, b.expected.mode.toList == "ok".toList, b.skip⟩) := by
  have hexpect := (leads_test number h.name).append (leads_expect _ b.expected)
  cases hskip : b.skip with
  | none => simpa [Block.directives, hskip] using hexpect
  | some reason =>
    have hreason : IsTitle reason := h.skip reason hskip
    simpa [Block.directives, hskip] using hexpect.append (leads_skip _ hreason)

theorem ofPart_dashes : Lines.ofPart "---" = ["---".toList] := by decide

theorem ofPart_equals : Lines.ofPart "===" = ["===".toList] := by decide

/-- A text that does not hold the mark of its part has no line that ends the part. -/
theorem EndsAt.ne_of_mem {mark text : String} (h : EndsAt mark text) :
    ∀ line ∈ Lines.ofPart text, Lines.trim line ≠ mark.toList := by
  rw [Lines.ofPart_of_not_mem h.1]
  exact h.2

theorem EndsAt.joined {mark text : String} (h : EndsAt mark text) : joined (Lines.ofPart text) = text.toList := by
  rw [Golden.joined, Lines.ofPart_of_not_mem h.1, Lines.intercalate_splitAtFeeds]

theorem leads_input (head : Header) {source : String} (h : EndsAt "---" source) :
    Leads (.header head) number (["---", source, "---"].flatMap Lines.ofPart) []
      (.expected head (Lines.ofPart source) []) := by
  have hopen : Leads (.header head) number (Lines.ofPart "---") [] (.input head []) := by
    rw [ofPart_dashes]
    exact leads_line (Stage.step_header number (by decide))
  have hkept {n : Nat} : Leads (.input head []) n (Lines.ofPart source) [] (.input head (Lines.ofPart source)) := by
    have hlines := leads_of_continues (.input head []) n h.ne_of_mem
    rwa [foldl_extend_input, List.nil_append] at hlines
  have hclose {n : Nat} {lines : List (List Char)} :
      Leads (.input head lines) n (Lines.ofPart "---") [] (.expected head lines []) := by
    rw [ofPart_dashes]
    exact leads_line (Stage.step_input n (by decide))
  simpa using hopen.append (hkept.append hclose)

theorem leads_expected (head : Header) (source : List (List Char)) {text : String} (h : EndsAt "===" text) :
    Leads (.expected head source []) number ([text, "==="].flatMap Lines.ofPart)
      [head.close source (Lines.ofPart text)] .between := by
  have hkept : Leads (.expected head source []) number (Lines.ofPart text) []
      (.expected head source (Lines.ofPart text)) := by
    have hlines := leads_of_continues (.expected head source []) number h.ne_of_mem
    rwa [foldl_extend_expected, List.nil_append] at hlines
  have hclose {n : Nat} {lines : List (List Char)} :
      Leads (.expected head source lines) n (Lines.ofPart "===") [head.close source lines] .between := by
    rw [ofPart_equals]
    exact leads_line (Stage.step_expected n (by decide))
  simpa using hkept.append hclose

theorem close_eq_case {b : Block} (h : b.Fits) :
    Header.close ⟨b.name, number, b.expected.mode.toList == "ok".toList, b.skip⟩ (Lines.ofPart b.input)
      (Lines.ofPart b.expected.text) = b.case number := by
  have htext : String.ofList (Lines.trim (joined (Lines.ofPart b.expected.text))) = b.expected.text := by
    rw [h.expected.joined, h.trimmed, String.ofList_toList]
  rw [Header.close, htext, h.input.joined, String.ofList_toList, Block.case]
  cases b.expected with
  | sexpr text => simp [Expected.mode, Expected.text]
  | errorContaining fragment => simp [Expected.mode, Expected.text]

/-- The lines of a case give the case, and nothing is left of them. -/
theorem leads_block (number : Nat) {b : Block} (h : b.Fits) :
    Leads .between number (b.parts.flatMap Lines.ofPart) [b.case (number + feeds (Lines.unlines b.comments))]
      .between := by
  have hcomments := leads_comments number h.comments
  have hcase := hcomments.append ((leads_directives h).append ((leads_input _ h.input).append
    (leads_expected _ _ h.expected)))
  rw [close_eq_case h, Lines.length_flatMap_ofPart] at hcase
  simpa [Block.parts, feeds] using hcase

theorem leads_blocks (number : Nat) {blocks : List Block} (h : ∀ b ∈ blocks, b.Fits) :
    Leads .between number ((blocks.flatMap Block.parts).flatMap Lines.ofPart) (casesAt number blocks) .between := by
  induction blocks generalizing number with
  | nil => exact .nil
  | cons b blocks ih =>
    have hblock := leads_block number (h b List.mem_cons_self)
    have hrest := ih (number + (b.parts.flatMap Lines.ofPart).length)
      fun b' hmem => h b' (List.mem_cons_of_mem _ hmem)
    rw [Lines.length_flatMap_ofPart] at hrest
    simpa [casesAt, feeds] using hblock.append (by rwa [Lines.length_flatMap_ofPart])

/-! ## Reading what was written -/

/-- What is written is read: the cases of a layout are those laid out, in order, each with the line of its
header and with its input and expectation as they were. -/
theorem cases_layout (blocks : List Block) (closing : List String) (hblocks : ∀ b ∈ blocks, b.Fits)
    (hclosing : ∀ part ∈ closing, IsComment part) : cases (layout blocks closing) = casesAt 1 blocks := by
  have hlines := (leads_blocks 1 hblocks).append (leads_comments _ hclosing)
  have hread := hlines []
  rw [cases, layout, Lines.ofText_unlines, List.flatMap_append]
  simpa [casesFrom] using hread

/-- Two cases whose texts hold headers and marks of other parts, and lines with white space at their ends. -/
def quoting : List Block :=
  [⟨["# Cases.", ""], "first", .sexpr "(transaction T\n  (actor A))", none, "# test: no\n===\n  transaction T {} "⟩,
    ⟨[" #  test: no"], "", .errorContaining "a\n---\n\nb", some "# skip: later", "x\n"⟩]

theorem cases_quoting :
    cases (layout quoting ["", "# The end."]) =
      [⟨"first", 3, "# test: no\n===\n  transaction T {} ", .sexpr "(transaction T\n  (actor A))", none⟩,
        ⟨"", 14, "x\n", .errorContaining "a\n---\n\nb", some "# skip: later"⟩] := by
  rw [cases_layout quoting ["", "# The end."] (by decide) (by decide)]
  decide

/-- A case with a comment before it that does not start as a header does, but would without its indentation. -/
def noted : Block := ⟨["  # test: a note"], "only", .sexpr "(transaction T)", none, "transaction T {}"⟩

/-- An indented header is one: the case gets its name and its line, and its own header is lost in it. -/
theorem cases_noted :
    (∀ part ∈ noted.comments, '\n' ∉ part.toList ∧ ¬"# test:".toList <+: part.toList) ∧
    Block.Fits { noted with comments := [] } ∧
    casesAt 1 [noted] = [⟨"only", 2, "transaction T {}", .sexpr "(transaction T)", none⟩] ∧
    cases (layout [noted] []) = [⟨"a note", 1, "transaction T {}", .sexpr "(transaction T)", none⟩] := by
  refine ⟨by decide, by decide, by decide, by decide⟩

end Parley.Golden
