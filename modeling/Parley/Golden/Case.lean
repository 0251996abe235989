/-
Golden cases. A case has a header line with its name, directives, an input between two lines `---`
and an expectation up to a line `===`; lines between cases are comments. A case counts only when
its last line has been read.
-/
import Parley.Text.Lines

namespace Parley.Golden

inductive Expected
  /-- The S-expression of the schema. -/
  | sexpr (text : String)
  /-- A fragment of the error message. -/
  | errorContaining (fragment : String)
deriving DecidableEq, Repr

structure Case where
  name : String
  /-- The line of the header, from 1. -/
  line : Nat
  input : String
  expected : Expected
  /-- Why the case is not run, if it is not. -/
  skip : Option String
deriving DecidableEq, Repr

structure Header where
  name : String
  line : Nat
  /-- Whether the input should be a schema. -/
  valid : Bool
  skip : Option String
deriving DecidableEq, Repr

/-- How far the reading of a case has come, with the lines read so far. -/
inductive Stage
  | between
  | header (head : Header)
  | input (head : Header) (lines : List (List Char))
  | expected (head : Header) (input lines : List (List Char))
deriving DecidableEq, Repr

def joined (lines : List (List Char)) : List Char := ['\n'].intercalate lines

def Header.close (head : Header) (input lines : List (List Char)) : Case :=
  let text := String.ofList (Lines.trim (joined lines))
  ⟨head.name, head.line, String.ofList (joined input),
    if head.valid then .sexpr text else .errorContaining text, head.skip⟩

/-- A header line is read by its directive; every other line of a header is a comment. -/
def Header.read (head : Header) (line : List Char) : Header :=
  match Lines.after? "# expect:".toList line with
  | some mode => { head with valid := Lines.trim mode == "ok".toList }
  | none =>
    match Lines.after? "# skip:".toList line with
    | some reason => { head with skip := some (String.ofList (Lines.trim reason)) }
    | none => head

/-- Reads one line with its number: the stage after it, and the case that it finishes. -/
def Stage.step (stage : Stage) (number : Nat) (raw : List Char) : Stage × Option Case :=
  let line := Lines.trim raw
  match stage with
  | .between =>
    match Lines.after? "# test:".toList line with
    | some name => (.header ⟨String.ofList (Lines.trim name), number, true, none⟩, none)
    | none => (.between, none)
  | .header head => (if line = "---".toList then .input head [] else .header (head.read line), none)
  | .input head lines =>
    (if line = "---".toList then .expected head lines [] else .input head (lines ++ [raw]), none)
  | .expected head source lines =>
    if line = "===".toList then (.between, some (head.close source lines))
    else (.expected head source (lines ++ [raw]), none)

/-- The cases that lines finish, from a stage and a line number on. -/
def casesFrom (stage : Stage) (number : Nat) : List (List Char) → List Case
  | [] => []
  | raw :: rest =>
    let (next, done) := stage.step number raw
    done.toList ++ casesFrom next (number + 1) rest

def cases (content : String) : List Case := casesFrom .between 1 (Lines.ofText content.toList)

end Parley.Golden
