/-
Checking a file is all or nothing, on a disk on which every operation may fail. Either all fixes are
in the file and the report is about the new text, or the file is as it was and the report is about
that, with one more error if the file could not be read or written. Every fix changes its name for
another, so a file that was fixed is never the same as before.
-/
import Parley.Proofs.Files.Replace
import Parley.Proofs.Lint.Places

namespace Parley

/-! ## Disks that fail -/

/-- The content of the file that a path leads to. -/
def Tree.content? (t : Tree) (path : String) : Option Content :=
  match t.get path with
  | .ok (.file content _) => some content
  | _ => none

theorem Tree.content?_eq_text_iff {t : Tree} {path source : String} :
    t.content? path = some (.text source) ↔ t.read path = .ok source := by
  unfold content? read
  rcases t.get path with e | (⟨_ | _, _⟩ | _ | _) <;> simp [bind, Except.bind]

/-- A tree of files on a disk, with what goes wrong when a path is read or is given a text, if
anything does. -/
structure Disk where
  tree : Tree
  readFault : String → Option FileError
  writeFault : String → String → Option FileError

namespace Disk

def read (d : Disk) (path : String) : Except FileError String :=
  match d.readFault path with
  | some e => .error e
  | none => d.tree.read path

/-- Gives a file a new text all at once, if nothing goes wrong. -/
def replace (d : Disk) (path text : String) : Except FileError Disk :=
  match d.writeFault path text with
  | some e => .error e
  | none => (d.tree.replace path text).map fun t => { d with tree := t }

def onTree {α : Type} (x : StateM Tree α) : StateM Disk α := fun d => ((x d.tree).1, { d with tree := (x d.tree).2 })

instance : FileAccess (StateM Disk) where
  read path := fun d => (d.read path, d)
  replace path text := fun d =>
    match d.replace path text with
    | .ok d => (.ok (), d)
    | .error e => (.error e, d)
  createDirectories path := onTree (FileAccess.createDirectories path)
  kind path := onTree (FileAccess.kind path)
  list path := onTree (FileAccess.list path)
  survey path := onTree (FileAccess.survey path)

def content? (d : Disk) (path : String) : Option Content := d.tree.content? path

variable {d d' : Disk} {path source : String}

theorem tree_read (h : d.read path = .ok source) : d.tree.read path = .ok source := by
  unfold read at h
  split at h
  · cases h
  · exact h

theorem content?_of_read (h : d.read path = .ok source) : d.content? path = some (.text source) :=
  Tree.content?_eq_text_iff.2 (tree_read h)

/-- A file that is read can be given a text, unless something goes wrong. -/
theorem writeFault_of_replace {text : String} {e : FileError} (h : d.read path = .ok source)
    (hreplace : d.replace path text = .error e) : d.writeFault path text = some e := by
  obtain ⟨t', -, ht', -⟩ := Tree.replace_of_read (tree_read h) text
  unfold replace at hreplace
  split at hreplace
  · rename_i hfault
    cases hreplace
    exact hfault
  · rw [ht'] at hreplace
    cases hreplace

/-- A file that is read has the text that it is given. -/
theorem content?_of_replace {text : String} (h : d.read path = .ok source) (hreplace : d.replace path text = .ok d') :
    d'.content? path = some (.text text) := by
  obtain ⟨t', target, ht', hpath, hrewritten⟩ := Tree.replace_of_read (tree_read h) text
  unfold replace at hreplace
  split at hreplace
  · cases hreplace
  · rw [ht'] at hreplace
    cases hreplace
    exact Tree.content?_eq_text_iff.2 (hrewritten.read_target hpath)

end Disk

/-! ## Fixed texts -/

/-- A source with fixes is another one once they are put in. -/
theorem autofixed_ne {source : String} (h : fixesOf (lint source) ≠ []) : autofixed source ≠ source := by
  intro hsame
  have happly := applyAll_autofixed source
  rw [hsame] at happly
  obtain ⟨s, hparse, hlint⟩ := lint_of_fixes h
  have hedits := s.fixes_perm
  rw [← hlint] at hedits
  obtain ⟨fixed, s', ls, ls', hfixed, -, -, htok, htok', htokens, -, hstarts, hall⟩ := fixes_rename hparse hedits
  cases hfixed.symm.trans happly
  cases htok.symm.trans htok'
  obtain ⟨e, he⟩ := List.exists_mem_of_ne_nil _ h
  obtain ⟨y, -, hfix, l, hl, htoken, hspan⟩ := hall e he
  obtain ⟨hplace, hne, -⟩ := Transaction.fixFor?_some hfix
  -- the token at the fix would be the name that was there, and also the one put in
  have hname : l.token = l.respelled (renamingOf (fixesOf (lint source))) := List.map_inj_left.1 htokens l hl
  have hstart : e.start = l.span.offset := by
    rw [hplace, hspan]
    rfl
  rw [Lexeme.respelled, htoken, ← hstart, renamingOf_eq hstarts he] at hname
  exact hne (Token.name.inj hname).symm

/-! ## File errors -/

/-- The errors among diagnostics that are about a file as a whole. -/
def fileErrors (diagnostics : List Diagnostic) : List Diagnostic :=
  diagnostics.filter fun x => x.finding.code == "E012" && x.isError

theorem Finding.code_eq_iff {f : Finding} : f.code = "E012" ↔ ∃ e, f = .unreadable e ∨ f = .unwritable e := by
  cases f with
  | unreadable e => simp [code]
  | unwritable e => simp [code]
  | violation v => cases v <;> simp [code, Violation.code]
  | style flaw => cases flaw <;> simp [code]
  | _ => simp [code]

/-- A source as such has no file errors. -/
theorem fileErrors_lint (source : String) : fileErrors (lint source) = [] := by
  refine List.filter_eq_nil_iff.2 fun x hx hcode => ?_
  rw [Bool.and_eq_true, beq_iff_eq, Finding.code_eq_iff] at hcode
  obtain ⟨⟨text, -, habout⟩, -⟩ := points_of_mem_lint hx
  obtain ⟨e, he | he⟩ := hcode.1
  · rw [he] at habout
    exact habout
  · rw [he] at habout
    exact habout

theorem fileErrors_append (ds ds' : List Diagnostic) : fileErrors (ds ++ ds') = fileErrors ds ++ fileErrors ds' :=
  List.filter_append ..

/-! ## Checked files -/

namespace Disk

variable {d d' : Disk} {path : String} {fix : Bool} {report : FileReport}

/-- The fixes of a source are to be put in, but the file cannot be written. -/
def WriteFails (d : Disk) (path : String) (fix : Bool) (source : String) (e : FileError) : Prop :=
  fix = true ∧ fixesOf (lint source) ≠ [] ∧
    ∃ fixed, Edit.applyAll source (fixesOf (lint source)) = .ok fixed ∧ d.replace path fixed = .error e

/-- The report on a file that was checked, and the disk after that. -/
inductive Checked (d : Disk) (path : String) (fix : Bool) : FileReport → Disk → Prop
  | unreadable {e : FileError} (read : d.read path = .error e) : Checked d path fix ⟨path, [.ofFile (.unreadable e)], 0, 0⟩ d
  | unasked {source : String} (read : d.read path = .ok source) (nothing : fix = false ∨ fixesOf (lint source) = []) :
    Checked d path fix ⟨path, lint source, (fixesOf (lint source)).length, 0⟩ d
  | unwritable {source : String} {e : FileError} (read : d.read path = .ok source) (fails : d.WriteFails path fix source e) :
    Checked d path fix ⟨path, lint source ++ [.ofFile (.unwritable e)], (fixesOf (lint source)).length, 0⟩ d
  | fixed {source : String} {d' : Disk} (read : d.read path = .ok source) (asked : fix = true)
    (something : fixesOf (lint source) ≠ []) (write : d.replace path (autofixed source) = .ok d') :
    Checked d path fix ⟨path, lint (autofixed source), (fixesOf (lint source)).length, (fixesOf (lint source)).length⟩ d'

theorem checked (d : Disk) (path : String) (fix : Bool) :
    d.Checked path fix ((lintFile path fix : StateM Disk FileReport) d).1 ((lintFile path fix : StateM Disk FileReport) d).2 := by
  unfold lintFile
  simp only [bind, StateT.bind, FileAccess.read, pure]
  cases hread : d.read path with
  | error e => exact .unreadable hread
  | ok source =>
    simp only [applyAll_autofixed]
    split
    · rename_i hnothing
      exact .unasked hread (by simpa using hnothing)
    · rename_i hsome
      simp only [Bool.or_eq_true, Bool.not_eq_true', List.isEmpty_iff, not_or, Bool.not_eq_false] at hsome
      simp only [StateT.bind, FileAccess.replace]
      cases hreplace : d.replace path (autofixed source) with
      | error e => exact .unwritable hread ⟨hsome.1, hsome.2, _, applyAll_autofixed source, hreplace⟩
      | ok d' => exact .fixed hread hsome.1 hsome.2 hreplace

section Checked

variable (h : d.Checked path fix report d')

include h

/-- The file changes just if something is fixed. -/
theorem Checked.content?_ne_iff : d'.content? path ≠ d.content? path ↔ 0 < report.fixed := by
  cases h with
  | unreadable | unasked | unwritable => simp
  | fixed read asked something write =>
    rw [content?_of_read read, content?_of_replace read write]
    simp [autofixed_ne something, List.length_pos_iff, something]

theorem Checked.of_fixed (hfixed : 0 < report.fixed) : ∃ source fixed, fix = true ∧
    d.content? path = some (.text source) ∧ Edit.applyAll source (fixesOf (lint source)) = .ok fixed ∧
    d.replace path fixed = .ok d' ∧ d'.content? path = some (.text fixed) ∧
    report.fixed = (fixesOf (lint source)).length ∧ report.fixed = report.fixable ∧ report.diagnostics = lint fixed := by
  cases h with
  | unreadable | unasked | unwritable => exact absurd hfixed (Nat.lt_irrefl 0)
  | fixed read asked something write =>
    exact ⟨_, _, asked, content?_of_read read, applyAll_autofixed _, write, content?_of_replace read write, rfl, rfl, rfl⟩

theorem Checked.of_unfixed (hunfixed : report.fixed = 0) : d' = d ∧
    ((∃ e, d.read path = .error e ∧ report.fixable = 0 ∧ report.diagnostics = [.ofFile (.unreadable e)] ∧
        fileErrors report.diagnostics = report.diagnostics) ∨
      ∃ source, d.content? path = some (.text source) ∧
        ((∃ e, d.WriteFails path fix source e ∧ report.diagnostics = lint source ++ [.ofFile (.unwritable e)] ∧
            fileErrors report.diagnostics = [.ofFile (.unwritable e)]) ∨
          (fix = false ∨ fixesOf (lint source) = []) ∧ report.diagnostics = lint source ∧
            fileErrors report.diagnostics = [])) := by
  cases h with
  | unreadable read => exact ⟨rfl, .inl ⟨_, read, rfl, rfl, rfl⟩⟩
  | unasked read nothing => exact ⟨rfl, .inr ⟨_, content?_of_read read, .inr ⟨nothing, rfl, fileErrors_lint _⟩⟩⟩
  | unwritable read fails =>
    refine ⟨rfl, .inr ⟨_, content?_of_read read, .inl ⟨_, fails, rfl, ?_⟩⟩⟩
    rw [fileErrors_append, fileErrors_lint]
    rfl
  | fixed read asked something write => exact absurd (List.length_eq_zero_iff.1 hunfixed) something

theorem Checked.fixable_eq {source : String} (hread : d.read path = .ok source) :
    report.fixable = (fixesOf (lint source)).length := by
  cases h with
  | unreadable read => cases read.symm.trans hread
  | unasked read | unwritable read | fixed read =>
    cases read.symm.trans hread
    rfl

end Checked

end Disk

/-- Checking a file is all or nothing. The file changes just if fixes are applied; these are all that its
text has, and the report is then about the new text. Else nothing changes and the report is about
the text as it is, with one more error if the fixes could not be written, or has one error if the
file could not be read. The fixable flaws are those of the text as it was. -/
theorem lintFile_all_or_nothing (d : Disk) (path : String) (fix : Bool) :
    let report := ((lintFile path fix : StateM Disk FileReport) d).1
    let d' := ((lintFile path fix : StateM Disk FileReport) d).2
    (d'.content? path ≠ d.content? path ↔ 0 < report.fixed) ∧
    (0 < report.fixed → ∃ source fixed, fix = true ∧
      d.content? path = some (.text source) ∧ Edit.applyAll source (fixesOf (lint source)) = .ok fixed ∧
      d.replace path fixed = .ok d' ∧ d'.content? path = some (.text fixed) ∧
      report.fixed = (fixesOf (lint source)).length ∧ report.fixed = report.fixable ∧ report.diagnostics = lint fixed) ∧
    (report.fixed = 0 → d' = d ∧
      ((∃ e, d.read path = .error e ∧ report.fixable = 0 ∧ report.diagnostics = [.ofFile (.unreadable e)] ∧
          fileErrors report.diagnostics = report.diagnostics) ∨
        ∃ source, d.content? path = some (.text source) ∧
          ((∃ e, d.WriteFails path fix source e ∧ report.diagnostics = lint source ++ [.ofFile (.unwritable e)] ∧
              fileErrors report.diagnostics = [.ofFile (.unwritable e)]) ∨
            (fix = false ∨ fixesOf (lint source) = []) ∧ report.diagnostics = lint source ∧
              fileErrors report.diagnostics = []))) ∧
    ∀ source, d.read path = .ok source → report.fixable = (fixesOf (lint source)).length := by
  intro report d'
  have h : d.Checked path fix report d' := d.checked path fix
  exact ⟨h.content?_ne_iff, h.of_fixed, h.of_unfixed, fun _ => h.fixable_eq⟩

/-- The one fix of a wrong call is in the file, or the disk is full and the file is as it was. -/
theorem checks_of_wrongCall :
    let source := "transaction T\x7bfunction f()\x7b\x7dblock A\x7bcall g(1)\x7d\x7d"
    let d : Disk := ⟨⟨[("t.omt", .file (.text source) none)]⟩, fun _ => none, fun _ _ => none⟩
    let full : Disk := { d with writeFault := fun _ _ => some (.other "No space left on device (os error 28)") }
    ((lintFile "t.omt" true : StateM Disk FileReport) d).1.fixed = 1 ∧
      ((lintFile "t.omt" true : StateM Disk FileReport) d).2.content? "t.omt" =
        some (.text "transaction T\x7bfunction f()\x7b\x7dblock A\x7bcall f(1)\x7d\x7d") ∧
      ((lintFile "t.omt" true : StateM Disk FileReport) full).2 = full ∧
      ((lintFile "t.omt" true : StateM Disk FileReport) full).1.fixable = 1 ∧
      fileErrors ((lintFile "t.omt" true : StateM Disk FileReport) full).1.diagnostics =
        [.ofFile (.unwritable (.other "No space left on device (os error 28)"))] := by
  intro source d full
  have hread : d.read "t.omt" = .ok source := by cbv
  have hcontent : d.content? "t.omt" = some (.text source) := Disk.content?_of_read hread
  have hfixes : fixesOf (lint source) = [⟨41, 42, "f"⟩] := fixesOf_wrongCall
  obtain ⟨-, hfixed, hunfixed, -⟩ := lintFile_all_or_nothing d "t.omt" true
  obtain ⟨-, hfixed', hunfixed', hfixable'⟩ := lintFile_all_or_nothing full "t.omt" true
  have hwritten : 0 < ((lintFile "t.omt" true : StateM Disk FileReport) d).1.fixed := by
    refine Nat.pos_of_ne_zero fun hzero => ?_
    obtain ⟨-, ⟨e, hfails, -⟩ | ⟨source', hsource, ⟨e, ⟨-, -, fixed, -, hfails⟩, -⟩ | ⟨hnothing, -⟩⟩⟩ := hunfixed hzero
    · cases hread.symm.trans hfails
    · cases Disk.writeFault_of_replace hread hfails
    · cases hcontent.symm.trans hsource
      simp [hfixes] at hnothing
  have hkept : ((lintFile "t.omt" true : StateM Disk FileReport) full).1.fixed = 0 := by
    refine Nat.eq_zero_of_not_pos fun hpos => ?_
    obtain ⟨_, _, -, -, -, hwrite, -⟩ := hfixed' hpos
    cases hwrite
  obtain ⟨source', fixed, -, hsource, happly, -, hafter, hcount, -⟩ := hfixed hwritten
  obtain ⟨hsame, ⟨e, hfails, -⟩ | ⟨source'', hsource', ⟨e, ⟨-, -, fixed', -, hfails⟩, -, herrors⟩ | ⟨hnothing, -⟩⟩⟩ :=
    hunfixed' hkept
  · cases hread.symm.trans hfails
  · cases hcontent.symm.trans hsource
    rw [hfixes] at happly hcount
    have hfixedText : Edit.applyAll source [⟨41, 42, "f"⟩] =
        .ok "transaction T\x7bfunction f()\x7b\x7dblock A\x7bcall f(1)\x7d\x7d" := by
      rw [Edit.applyAll_singleton (by decide)]
      exact congrArg Except.ok (by decide)
    cases hfails
    cases hfixedText.symm.trans happly
    exact ⟨hcount, hafter, hsame, by rw [hfixable' source hread, hfixes]; rfl, herrors⟩
  · cases hcontent.symm.trans hsource'
    simp [hfixes] at hnothing

end Parley
