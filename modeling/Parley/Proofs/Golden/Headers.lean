/-
Headers and the cases they begin. Between cases a line is read for a header, and inside a case only for
the mark that ends its part. So what is awaited says which headers begin a case, and a case is found for
each of them but the one whose last mark never comes.
-/
import Parley.Golden.Case
import Mathlib

namespace Parley.Golden

/-! ## Headers -/

/-- The name of the case that a line begins, if it is a header. -/
def title? (line : List Char) : Option String :=
  (Lines.after? "# test:".toList (Lines.trim line)).map fun name => String.ofList (Lines.trim name)

/-- The lines that end the header, the input and the expectation of a case. -/
def marks : List (List Char) := ["---".toList, "---".toList, "===".toList]

/-- The marks awaited behind a line; between cases none is awaited. -/
def awaitedAfter (awaited : List (List Char)) (line : List Char) : List (List Char) :=
  match awaited with
  | [] => if (title? line).isSome then marks else []
  | mark :: later => if Lines.trim line = mark then later else mark :: later

/-- The name and the number of a line that begins a case. -/
def headerAt (awaited : List (List Char)) (number : Nat) (line : List Char) : Option (String × Nat) :=
  match awaited with
  | [] => (title? line).map (·, number)
  | _ :: _ => none

def headersFrom (awaited : List (List Char)) (number : Nat) : List (List Char) → List (String × Nat)
  | [] => []
  | line :: lines =>
    (headerAt awaited number line).toList ++ headersFrom (awaitedAfter awaited line) (number + 1) lines

/-- The headers of a text that are not inside a case, with the numbers of their lines. -/
def headers (content : String) : List (String × Nat) := headersFrom [] 1 (Lines.ofText content.toList)

/-- The marks that a text still lacks at its end. -/
def missing (content : String) : List (List Char) := (Lines.ofText content.toList).foldl awaitedAfter []

/-! ## Stages -/

def Case.heading (c : Case) : String × Nat := (c.name, c.line)

namespace Stage

def awaited : Stage → List (List Char)
  | between => []
  | header _ => marks
  | input .. => marks.drop 1
  | expected .. => marks.drop 2

/-- The header of the case that is being read. -/
def begun : Stage → Option (String × Nat)
  | between => none
  | header head | input head _ | expected head .. => some (head.name, head.line)

/-- The stage that lines lead to. -/
def after (stage : Stage) (number : Nat) : List (List Char) → Stage
  | [] => stage
  | line :: lines => (stage.step number line).1.after (number + 1) lines

/-- A line that begins no case and ends no part of one. -/
def Continues (stage : Stage) (line : List Char) : Prop :=
  match stage.awaited with
  | [] => title? line = none
  | mark :: _ => Lines.trim line ≠ mark

/-- The stage with one line more in the part that is being read. -/
def extend (stage : Stage) (line : List Char) : Stage :=
  match stage with
  | between => between
  | header head => header (head.read (Lines.trim line))
  | input head lines => input head (lines ++ [line])
  | expected head source lines => expected head source (lines ++ [line])

variable (stage : Stage) (number : Nat) {line : List Char}

theorem begun_eq_none_iff : stage.begun = none ↔ stage.awaited = [] := by
  cases stage <;> simp [begun, awaited, marks]

theorem awaited_extend (line : List Char) : (stage.extend line).awaited = stage.awaited := by
  cases stage <;> rfl

theorem begun_extend (line : List Char) : (stage.extend line).begun = stage.begun := by
  cases stage with
  | header head =>
    simp only [extend, Header.read]
    split
    · rfl
    · split <;> rfl
  | _ => rfl

/-! ### One line -/

variable {stage} in
theorem step_of_continues (h : stage.Continues line) : stage.step number line = (stage.extend line, none) := by
  cases stage with
  | between =>
    have htitle : Lines.after? "# test:".toList (Lines.trim line) = none := by
      simpa [Continues, awaited, title?] using h
    simp only [step, htitle, extend]
  | header head | input head lines => exact congrArg (·, none) (if_neg h)
  | expected head source lines => exact if_neg h

theorem step_between {name : String} (h : title? line = some name) :
    between.step number line = (header ⟨name, number, true, none⟩, none) := by
  obtain ⟨rest, hrest, rfl⟩ := Option.map_eq_some_iff.1 h
  simp only [step, hrest]

theorem step_header {head : Header} (h : Lines.trim line = "---".toList) :
    (header head).step number line = (input head [], none) :=
  congrArg (·, none) (if_pos h)

theorem step_input {head : Header} {lines : List (List Char)} (h : Lines.trim line = "---".toList) :
    (input head lines).step number line = (expected head lines [], none) :=
  congrArg (·, none) (if_pos h)

theorem step_expected {head : Header} {source lines : List (List Char)} (h : Lines.trim line = "===".toList) :
    (expected head source lines).step number line = (between, some (head.close source lines)) :=
  if_pos h

/-- What a line does to a case: one that does not continue the stage begins a case or ends a part of it. -/
theorem step_cases (line : List Char) :
    (stage.Continues line ∧ stage.step number line = (stage.extend line, none)) ∨
    (∃ name, stage = between ∧ title? line = some name ∧
      stage.step number line = (header ⟨name, number, true, none⟩, none)) ∨
    (∃ head, stage = header head ∧ Lines.trim line = "---".toList ∧
      stage.step number line = (input head [], none)) ∨
    (∃ head lines, stage = input head lines ∧ Lines.trim line = "---".toList ∧
      stage.step number line = (expected head lines [], none)) ∨
    (∃ head source lines, stage = expected head source lines ∧ Lines.trim line = "===".toList ∧
      stage.step number line = (between, some (head.close source lines))) := by
  by_cases hline : stage.Continues line
  · exact .inl ⟨hline, step_of_continues number hline⟩
  right
  cases stage with
  | between =>
    obtain ⟨name, hname⟩ := Option.ne_none_iff_exists'.1 hline
    exact .inl ⟨name, rfl, hname, step_between number hname⟩
  | header head =>
    have hmark := not_not.1 hline
    exact .inr (.inl ⟨head, rfl, hmark, step_header number hmark⟩)
  | input head lines =>
    have hmark := not_not.1 hline
    exact .inr (.inr (.inl ⟨head, lines, rfl, hmark, step_input number hmark⟩))
  | expected head source lines =>
    have hmark := not_not.1 hline
    exact .inr (.inr (.inr ⟨head, source, lines, rfl, hmark, step_expected number hmark⟩))

variable {stage} in
theorem awaitedAfter_of_continues (h : stage.Continues line) : awaitedAfter stage.awaited line = stage.awaited := by
  unfold Continues at h
  split at h
  · next hnone => simp [awaitedAfter, hnone, h]
  · next mark later hmark => simp [awaitedAfter, hmark, h]

variable {stage} in
theorem headerAt_of_continues (h : stage.Continues line) : headerAt stage.awaited number line = none := by
  unfold Continues at h
  split at h
  · next hnone => simp [headerAt, hnone, h]
  · next mark later hmark => simp [headerAt, hmark]

/-- A stage awaits behind a line what its marks say. -/
theorem awaited_step (line : List Char) :
    (stage.step number line).1.awaited = awaitedAfter stage.awaited line := by
  obtain ⟨hline, hstep⟩ | ⟨name, rfl, hname, hstep⟩ | ⟨head, rfl, hmark, hstep⟩ | ⟨head, lines, rfl, hmark, hstep⟩ |
    ⟨head, source, lines, rfl, hmark, hstep⟩ := stage.step_cases number line
  · rw [hstep, awaited_extend, awaitedAfter_of_continues hline]
  · rw [hstep, awaited, awaited, awaitedAfter, hname]
    rfl
  all_goals
    rw [hstep]
    exact (if_pos hmark).symm

/-- The header that a line begins a case with is kept until the case is finished. -/
theorem heading_step (line : List Char) :
    stage.begun.toList ++ (headerAt stage.awaited number line).toList =
      (stage.step number line).2.toList.map Case.heading ++ (stage.step number line).1.begun.toList := by
  obtain ⟨hline, hstep⟩ | ⟨name, rfl, hname, hstep⟩ | ⟨head, rfl, -, hstep⟩ | ⟨head, lines, rfl, -, hstep⟩ |
    ⟨head, source, lines, rfl, -, hstep⟩ := stage.step_cases number line
  · rw [hstep, headerAt_of_continues number hline, begun_extend]
    exact List.append_nil _
  · rw [hstep, awaited, headerAt, hname]
    rfl
  all_goals
    rw [hstep]
    rfl

/-! ### Many lines -/

theorem awaited_after (lines : List (List Char)) :
    (stage.after number lines).awaited = lines.foldl awaitedAfter stage.awaited := by
  induction lines generalizing stage number with
  | nil => rfl
  | cons line lines ih => rw [after, ih, awaited_step, List.foldl_cons]

/-- Of the case begun before the lines and those begun on them, all are finished but the one that is being
read at the end. -/
theorem heading_after (lines : List (List Char)) :
    stage.begun.toList ++ headersFrom stage.awaited number lines =
      (casesFrom stage number lines).map Case.heading ++ (stage.after number lines).begun.toList := by
  induction lines generalizing stage number with
  | nil => simp [headersFrom, casesFrom, after]
  | cons line lines ih =>
    calc stage.begun.toList ++ headersFrom stage.awaited number (line :: lines)
        = (stage.begun.toList ++ (headerAt stage.awaited number line).toList) ++
            headersFrom (awaitedAfter stage.awaited line) (number + 1) lines := by
          rw [headersFrom, List.append_assoc]
      _ = (stage.step number line).2.toList.map Case.heading ++
            ((stage.step number line).1.begun.toList ++
              headersFrom (stage.step number line).1.awaited (number + 1) lines) := by
          rw [heading_step, awaited_step, List.append_assoc]
      _ = _ := by
          rw [ih, casesFrom, after, List.map_append, List.append_assoc]

end Stage

/-! ## Cases of a text -/

/-- The cases of a text are those its headers begin, in order and with their names and lines, but for the
last one if the text lacks a mark at its end. -/
theorem headers_eq_cases_append (content : String) :
    ∃ lost : Option (String × Nat),
      headers content = (cases content).map Case.heading ++ lost.toList ∧ (lost = none ↔ missing content = []) := by
  refine ⟨(Stage.between.after 1 (Lines.ofText content.toList)).begun, ?_, ?_⟩
  · exact Stage.heading_after .between 1 (Lines.ofText content.toList)
  · rw [Stage.begun_eq_none_iff, Stage.awaited_after]
    rfl

/-- A text that ends behind the expectation of its only case, without the mark that ends it. -/
def unfinished : String :=
  "# test: last\n# expect: ok\n---\ntransaction T {}\n---\n(transaction T)\n"

theorem cases_unfinished : headers unfinished = [("last", 1)] ∧ cases unfinished = [] := by
  decide

end Parley.Golden
