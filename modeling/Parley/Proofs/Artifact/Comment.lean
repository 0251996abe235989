/-
Descriptions in stubs. The description of a transaction is put behind a mark that makes its first line a
comment, and nothing is put before its other lines: they are lines of code unless they start with such a
mark themselves. All else in a stub is the same whatever the description.
-/
import Parley.Artifact.Stub
import Parley.Proofs.Lint.Fixes
import Mathlib

namespace Parley

/-! ## Lines of code -/

/-- What a line ends at: a line feed, or as Python reads a file a carriage return as well, which takes a
line feed behind it along. -/
inductive LineEnd
  | feed | universal
deriving DecidableEq

namespace LineEnd

/-- Whether a line ends with a character, given what comes behind it. -/
def endsWith (e : LineEnd) (c : Char) (rest : List Char) : Bool :=
  match e with
  | feed => c == '\n'
  | universal => c == '\n' || (c == '\r' && rest.head? != some '\n')

/-- The lines of a text, each with its end. -/
def lines (e : LineEnd) : List Char → List (List Char)
  | [] => []
  | c :: cs =>
    if e.endsWith c cs then [c] :: e.lines cs
    else match e.lines cs with
      | [] => [[c]]
      | line :: rest => (c :: line) :: rest

def isComment (line : List Char) : Bool := line.head? == some '#'

/-- The lines of a text that are no comments. -/
def code (e : LineEnd) (text : String) : List (List Char) := (e.lines text.toList).filter fun line => !isComment line

/-- The lines of a description that are no comments in a stub: of those behind its first. -/
def exposed (e : LineEnd) : Option String → List (List Char)
  | none => []
  | some text => (e.lines (text.toList ++ ['\n'])).tail.filter fun line => !isComment line

variable (e : LineEnd)

theorem endsWith_feed (rest : List Char) : e.endsWith '\n' rest = true := by
  cases e <;> rfl

/-- Of what is behind a character only the next one matters. -/
theorem endsWith_congr {rest rest' : List Char} (h : rest.head? = rest'.head?) (c : Char) :
    e.endsWith c rest = e.endsWith c rest' := by
  cases e with
  | feed => rfl
  | universal => rw [endsWith, endsWith, h]

theorem lines_ne_nil {cs : List Char} (h : cs ≠ []) : e.lines cs ≠ [] := by
  obtain ⟨c, cs, rfl⟩ := List.exists_cons_of_ne_nil h
  rw [lines]
  split
  · exact List.cons_ne_nil _ _
  · split <;> exact List.cons_ne_nil _ _

/-- What is before a line feed and what is behind it have lines of their own. -/
theorem lines_append_feed (cs rest : List Char) :
    e.lines (cs ++ '\n' :: rest) = e.lines (cs ++ ['\n']) ++ e.lines rest := by
  induction cs with
  | nil => simp [lines, endsWith_feed]
  | cons c cs ih =>
    have hhead : (cs ++ '\n' :: rest).head? = (cs ++ ['\n']).head? := by cases cs <;> rfl
    rw [List.cons_append, List.cons_append, lines, lines, e.endsWith_congr hhead, ih]
    split
    · rfl
    · have hne : cs ++ ['\n'] ≠ [] := by simp
      obtain ⟨line, more, hlines⟩ := List.exists_cons_of_ne_nil (e.lines_ne_nil hne)
      rw [hlines]
      rfl

theorem code_append_feed (a b : String) : e.code (a ++ "\n" ++ b) = e.code (a ++ "\n") ++ e.code b := by
  have hfeed : "\n".toList = ['\n'] := rfl
  simp only [code, String.toList_append, hfeed]
  rw [← List.filter_append, ← lines_append_feed, List.append_assoc, List.singleton_append]

end LineEnd

/-! ## Stubs -/

namespace Stub

open LineEnd

/-- What is put in a stub for a description. -/
def comment (description : Option String) : String := description.elim "" fun text => "# " ++ text ++ "\n"

theorem code_comment (e : LineEnd) (description : Option String) :
    e.code (comment description) = e.exposed description := by
  cases description with
  | none => rfl
  | some text =>
    have hne : text.toList ++ ['\n'] ≠ [] := by simp
    obtain ⟨line, more, hlines⟩ := List.exists_cons_of_ne_nil (e.lines_ne_nil hne)
    have hmark : ∀ c rest, c = '#' ∨ c = ' ' → e.endsWith c rest = false := by
      rintro c rest (rfl | rfl) <;> cases e <;> rfl
    have hfirst : e.lines ('#' :: ' ' :: (text.toList ++ ['\n'])) = ('#' :: ' ' :: line) :: more := by
      rw [lines, lines, hlines, hmark _ _ (.inl rfl), hmark _ _ (.inr rfl)]
      rfl
    have htext : (comment (some text)).toList = '#' :: ' ' :: (text.toList ++ ['\n']) := by simp [comment]
    rw [code, htext, hfirst, exposed, hlines, List.filter_cons_of_neg (by simp [isComment]), List.tail_cons]

/-- A stub is made of its first line, of what is put in for the description, and of the rest, which is the
same for every description. -/
theorem exists_render_eq (tx : Transaction) : ∃ rest, ∀ description, render { tx with description := description } =
    docString (tx.name ++ " transaction. Generated from transaction.omt; do not edit.") ++ "\n" ++
      (comment description ++ ("\n" ++ rest)) := by
  refine ⟨Lines.unlines (["from dataclasses import dataclass", "from enum import Enum",
    "from typing import Dict, List, Optional", "",
    "ACTORS = [" ++ commaSeparated (tx.actors.map fun a => quoted a.name) ++ "]"] ++
      tx.messages.flatMap message ++ tx.functions.flatMap function ++ blocks tx.blocks), fun description => ?_⟩
  cases description <;> simp [render, opening, comment, Lines.unlines, String.append_assoc]

/-- The lines of code in a stub are those of its other parts with those of the description between them. -/
theorem exists_code_eq (e : LineEnd) (tx : Transaction) : ∃ before behind, ∀ description,
    e.code (render { tx with description := description }) = before ++ (e.exposed description ++ behind) := by
  obtain ⟨rest, hrender⟩ := exists_render_eq tx
  refine ⟨e.code (docString (tx.name ++ " transaction. Generated from transaction.omt; do not edit.") ++ "\n"),
    e.code ("\n" ++ rest), fun description => ?_⟩
  have hcomment : e.code (comment description ++ ("\n" ++ rest)) =
      e.code (comment description) ++ e.code ("\n" ++ rest) := by
    cases description with
    | none => rfl
    | some text => exact e.code_append_feed ("# " ++ text) ("\n" ++ rest)
  rw [hrender, code_append_feed, hcomment, code_comment]

/-- The description of a transaction reaches the code of its stub by the lines behind its first that do not
start with a comment mark, and only by these: two descriptions make the same code exactly when these lines
are the same, and a description is a mere comment exactly when it has no such lines. -/
theorem description_harmless_iff (e : LineEnd) (tx : Transaction) :
    (∃ before behind, ∀ description,
      e.code (render { tx with description := description }) = before ++ (e.exposed description ++ behind)) ∧
    (∀ d d', e.code (render { tx with description := d }) = e.code (render { tx with description := d' }) ↔
      e.exposed d = e.exposed d') ∧
    ∀ text, e.code (render { tx with description := some text }) = e.code (render { tx with description := none }) ↔
      ∀ line ∈ (e.lines (text.toList ++ ['\n'])).tail, isComment line = true := by
  obtain ⟨before, behind, hcode⟩ := exists_code_eq e tx
  have hiff : ∀ d d', e.code (render { tx with description := d }) = e.code (render { tx with description := d' }) ↔
      e.exposed d = e.exposed d' := fun d d' => by
    rw [hcode, hcode, List.append_cancel_left_eq, List.append_cancel_right_eq]
  refine ⟨⟨before, behind, hcode⟩, hiff, fun text => ?_⟩
  rw [hiff, exposed, exposed, List.filter_eq_nil_iff]
  simp

/-- A transaction with a description of two lines. -/
def importing : Transaction where
  name := "T"
  description := some "x\nimport os"
  actors := [⟨"B", none, ⟨35, 1, 1, 36⟩⟩, ⟨"S", none, ⟨44, 1, 1, 45⟩⟩]
  messages := [⟨"M", ⟨"B", ⟨57, 1, 1, 58⟩⟩, ⟨"S", ⟨60, 1, 1, 61⟩⟩, [], ⟨55, 1, 1, 56⟩⟩]
  blocks := [⟨"A", true, [⟨.send ⟨"M", ⟨82, 1, 1, 83⟩⟩, none, ⟨77, 6, 1, 78⟩⟩], ⟨75, 1, 1, 76⟩⟩]
  functions := []
  span := ⟨12, 1, 1, 13⟩

/-- The derivation of a source of it. -/
def importingTree : SchemaTree where
  first :=
    { header := ⟨.placed () "transaction" ⟨0, 11, 1, 1⟩, .placed "T" "T" ⟨12, 1, 1, 13⟩,
        some (.placed "x\nimport os" "\"x\\nimport os\"" ⟨14, 14, 1, 15⟩), .placed () "\x7b" ⟨28, 1, 1, 29⟩⟩
      declarations := [
        .actor ⟨.placed () "actor" ⟨29, 5, 1, 30⟩, .placed "B" "B" ⟨35, 1, 1, 36⟩, .placed () "\x7b" ⟨36, 1, 1, 37⟩,
          none, .placed () "\x7d" ⟨37, 1, 1, 38⟩⟩,
        .actor ⟨.placed () "actor" ⟨38, 5, 1, 39⟩, .placed "S" "S" ⟨44, 1, 1, 45⟩, .placed () "\x7b" ⟨45, 1, 1, 46⟩,
          none, .placed () "\x7d" ⟨46, 1, 1, 47⟩⟩,
        .message ⟨.placed () "message" ⟨47, 7, 1, 48⟩, .placed "M" "M" ⟨55, 1, 1, 56⟩, .placed "B" "B" ⟨57, 1, 1, 58⟩,
          .placed () "->" ⟨58, 2, 1, 59⟩, .placed "S" "S" ⟨60, 1, 1, 61⟩, .placed () "\x7b" ⟨61, 1, 1, 62⟩, [],
          .placed () "\x7d" ⟨62, 1, 1, 63⟩⟩,
        .block ⟨some (.placed () "entry" ⟨63, 5, 1, 64⟩), .placed () "block" ⟨69, 5, 1, 70⟩, .placed "A" "A" ⟨75, 1, 1, 76⟩,
          .placed () "\x7b" ⟨76, 1, 1, 77⟩,
          [(⟨.send (.placed () "send" ⟨77, 4, 1, 78⟩) (.placed "M" "M" ⟨82, 1, 1, 83⟩), none⟩, none)],
          .placed () "\x7d" ⟨83, 1, 1, 84⟩⟩]
      right := .placed () "\x7d" ⟨84, 1, 1, 85⟩ }
  more := []

theorem parse_importing :
    parse "transaction T \"x\\nimport os\"\x7bactor B\x7b\x7dactor S\x7b\x7dmessage M B->S\x7b\x7dentry block A\x7bsend M\x7d\x7d" =
      .ok ⟨[importing]⟩ :=
  parse_ok_iff_derivation.2 ⟨importingTree, by cbv, rfl⟩

/-- A source without flaws whose description holds an escaped line feed has a statement in its stub, and
without the description another text once the comments are gone. -/
theorem import_from_description :
    let source := "transaction T \"x\\nimport os\"\x7bactor B\x7b\x7dactor S\x7b\x7dmessage M B->S\x7b\x7dentry block A\x7bsend M\x7d\x7d"
    parse source = .ok ⟨[importing]⟩ ∧ lint source = [] ∧
      ∀ e : LineEnd, "import os\n".toList ∈ e.code (render importing) ∧
        (e.code (render importing)).flatten ≠ (e.code (render { importing with description := none })).flatten := by
  intro source
  refine ⟨parse_importing, ?_, fun e => ?_⟩
  · rw [lint_of_parse parse_importing]
    cbv
  · obtain ⟨before, behind, hcode⟩ := exists_code_eq e importing
    have hwith : e.code (render importing) = _ := hcode (some "x\nimport os")
    have hexposed : e.exposed (some "x\nimport os") = ["import os\n".toList] := by cases e <;> decide
    rw [hwith, hcode none, hexposed, exposed]
    refine ⟨by simp, fun heq => ?_⟩
    have hlength := congrArg List.length heq
    simp only [List.flatten_append, List.flatten_singleton, List.nil_append, List.length_append] at hlength
    have hpos : 0 < "import os\n".toList.length := by decide
    omega

end Stub

end Parley
