/-
The gate before an artifact. An artifact is refused exactly if the file of its directory cannot be
read or parsed or its first transaction has errors; then nothing is written. Of a file with one
transaction, checking says the same: it finds an error exactly if the artifacts are refused.
-/
import Parley.Proofs.Command.Regenerate
import Parley.Proofs.Files.Write
import Parley.Proofs.Lint.Atomic

namespace Parley

open Parley.Tree (Extends LinkFree Written)

/-! ## What is admitted -/

/-- The file of a directory is read and parsed, and its first transaction has no errors. -/
structure Admitted (t : Tree) (directory : String) (tx : Transaction) : Prop where
  first : ∃ source schema, t.read (Path.join directory transactionFile) = .ok source ∧ parse source = .ok schema ∧
    schema.transactions.head? = some tx
  valid : ∀ issue ∈ tx.issues, issue.isError = false

/-- An artifact is not made for what its source is, and not for want of a place to write it. -/
def Refused (result : Except GenerateError Unit) : Prop :=
  ∃ e, result = .error e ∧ ∀ path cause, e ≠ .unwritable path cause

/-- A text can be written to the path, whatever it is. -/
def Tree.Writable (t : Tree) (path : String) : Prop :=
  ∀ text, ((writeArtifact path text : StateM Tree (Except FileError Unit)) t).1 = .ok ()

/-- The text of an artifact of a directory, unless it is refused. -/
def Artifact.textIn (artifact : Artifact) (t : Tree) (directory : String) : Except GenerateError String :=
  match transactionIn t directory with
  | .error e => .error (.source e)
  | .ok tx => artifact.renderValid directory tx

section Admit

variable {t : Tree} {directory : String} {tx : Transaction}

theorem transactionIn_eq_ok_iff : transactionIn t directory = .ok tx ↔
    ∃ source schema, t.read (Path.join directory transactionFile) = .ok source ∧ parse source = .ok schema ∧
      schema.transactions.head? = some tx := by
  unfold transactionIn
  cases hread : t.read (Path.join directory transactionFile) with
  | error e => simp
  | ok source =>
    cases hparse : parse source with
    | error e => simp [hparse]
    | ok schema => cases hhead : schema.transactions.head? <;> simp [hparse, hhead]

theorem errorsOf_eq_nil_iff {issues : List Issue} : errorsOf issues = [] ↔ ∀ issue ∈ issues, issue.isError = false := by
  simp [errorsOf]

theorem admitted_iff : Admitted t directory tx ↔ transactionIn t directory = .ok tx ∧ errorsOf tx.issues = [] := by
  rw [transactionIn_eq_ok_iff, errorsOf_eq_nil_iff]
  exact ⟨fun h => ⟨h.first, h.valid⟩, fun h => ⟨h.1, h.2⟩⟩

theorem Artifact.textIn_eq_ok_iff (artifact : Artifact) {text : String} :
    artifact.textIn t directory = .ok text ↔ ∃ tx, Admitted t directory tx ∧ text = artifact.render tx := by
  simp only [admitted_iff]
  unfold textIn
  cases transactionIn t directory with
  | error e => simp
  | ok tx =>
    simp only [renderValid, Except.ok.injEq]
    cases herrors : errorsOf tx.issues <;> simp [herrors, eq_comm]

theorem Artifact.not_unwritable_of_textIn {artifact : Artifact} {e : GenerateError} (h : artifact.textIn t directory = .error e) :
    ∀ path cause, e ≠ .unwritable path cause := by
  rintro path cause rfl
  unfold textIn renderValid at h
  split at h
  · cases h
  · dsimp only at h
    split at h <;> cases h

/-- How making an artifact ends: it is refused, or its text is written, or cannot be written. -/
inductive Generates (artifact : Artifact) (t : Tree) (directory output : String) : Except GenerateError Unit × Tree → Prop
  | refused {e : GenerateError} (h : artifact.textIn t directory = .error e) :
      Generates artifact t directory output (.error e, t)
  | made {text : String} {u : Tree} (h : artifact.textIn t directory = .ok text)
      (hwrite : (writeArtifact output text : StateM Tree (Except FileError Unit)) t = (.ok (), u)) :
      Generates artifact t directory output (.ok (), u)
  | unwritten {text : String} {cause : FileError} {u : Tree} (h : artifact.textIn t directory = .ok text)
      (hwrite : (writeArtifact output text : StateM Tree (Except FileError Unit)) t = (.error cause, u)) :
      Generates artifact t directory output (.error (.unwritable output cause), u)

theorem generates (artifact : Artifact) (t : Tree) (directory output : String) :
    Generates artifact t directory output
      ((artifact.generate directory output : StateM Tree (Except GenerateError Unit)) t) := by
  unfold Artifact.generate
  rw [Tree.bind_apply, loadTransaction_eq]
  cases hload : transactionIn t directory with
  | error e =>
    refine .refused ?_
    rw [Artifact.textIn, hload]
  | ok tx =>
    have htext : artifact.textIn t directory = artifact.renderValid directory tx := by rw [Artifact.textIn, hload]
    cases hvalid : artifact.renderValid directory tx with
    | error e =>
      simp only [hvalid]
      exact .refused (htext.trans hvalid)
    | ok text =>
      simp only [hvalid]
      rw [Tree.bind_apply]
      rcases hwrite : (writeArtifact output text : StateM Tree (Except FileError Unit)) t with ⟨cause | _, u⟩
      · exact .unwritten (htext.trans hvalid) hwrite
      · exact .made (htext.trans hvalid) hwrite

end Admit

/-! ## Writing -/

section Write

variable {t u : Tree} {output text : String}

/-- Directories are created first, or cannot be; then the file is put into place. -/
theorem writeArtifact_cases (output text : String) (t : Tree) :
    (∃ e, (writeArtifact output text : StateM Tree (Except FileError Unit)) t = (.error e, t)) ∨
      ∃ v, Extends (fun _ => False) t v ∧ (writeArtifact output text : StateM Tree (Except FileError Unit)) t =
        (FileAccess.replace output text : StateM Tree (Except FileError Unit)) v := by
  unfold writeArtifact
  by_cases habove : (Path.parent? output).getD "" = ""
  · simp only [habove, if_true]
    exact .inr ⟨t, .refl _ t, rfl⟩
  · simp only [habove, if_false]
    rw [Tree.bind_apply, createDirectories_apply]
    cases hcreate : t.createDirectories ((Path.parent? output).getD "") with
    | error e => exact .inl ⟨e, rfl⟩
    | ok v => exact .inr ⟨v, Tree.extends_createDirectories hcreate, rfl⟩

theorem written_of_writeArtifact (ht : t.LinkFree)
    (h : (writeArtifact output text : StateM Tree (Except FileError Unit)) t = (.ok (), u)) :
    ∃ names, Written t u output names text := by
  rcases writeArtifact_cases output text t with ⟨e, hrun⟩ | ⟨v, hext, hrun⟩
  · cases hrun.symm.trans h
  · rw [h, replace_apply] at hrun
    cases hreplace : v.replace output text with
    | error e => rw [hreplace] at hrun; cases hrun
    | ok w =>
      rw [hreplace] at hrun
      obtain rfl := (Prod.mk.inj hrun).2
      obtain ⟨names, hplace, hcontent, hother⟩ := Tree.written_of_replace (ht.extends hext) hreplace
      exact ⟨names, hplace, hcontent, fun other hne => (hother other hne).trans (hext.file?_eq fun _ _ => not_false)⟩

theorem Tree.content?_eq (t : Tree) (path : String) :
    t.content? path = (t.resolve path).toOption.bind fun names => (t.file? names).map Prod.fst := by
  unfold content? get file?
  cases t.resolve path with
  | error e => rfl
  | ok names =>
    simp only [bind, Except.bind, Except.toOption, Option.bind_some]
    rcases t.find? names with _ | _ | _ | _ <;> rfl

/-- Where a file cannot be put, none was. -/
theorem unwritten_of_writeArtifact {e : FileError}
    (h : (writeArtifact output text : StateM Tree (Except FileError Unit)) t = (.error e, u)) :
    (∀ names, u.file? names = t.file? names) ∧ u.content? output = t.content? output := by
  rcases writeArtifact_cases output text t with ⟨e', hrun⟩ | ⟨v, hext, hrun⟩
  · obtain rfl := (Prod.mk.inj (hrun.symm.trans h)).2
    exact ⟨fun _ => rfl, rfl⟩
  · rw [h, replace_apply] at hrun
    cases hreplace : v.replace output text with
    | ok w => rw [hreplace] at hrun; cases hrun
    | error e =>
      rw [hreplace] at hrun
      obtain rfl := (Prod.mk.inj hrun).2
      have hfiles : ∀ names, u.file? names = t.file? names := fun names => hext.file?_eq fun _ _ => not_false
      have hnone : u.content? output = none := by
        rw [Tree.content?_eq]
        cases hresolve : u.resolve output with
        | error => rfl
        | ok names => simp [Except.toOption, Tree.file?_of_replace_error hreplace hresolve]
      refine ⟨hfiles, ?_⟩
      -- a file that the path led to before would be in the way now
      rw [hnone, eq_comm, Tree.content?_eq]
      cases hresolve : t.resolve output with
      | error => rfl
      | ok names => simp [Except.toOption, ← hfiles, Tree.file?_of_replace_error hreplace (hext.resolve hresolve)]

end Write

/-! ## Checking -/

section Check

variable {source : String}

theorem Recovery.errorsAfter_ne_nil (source : String) (ls : List Lexeme) (strict : ParseError) :
    errorsAfter source ls strict ≠ [] := by
  unfold errorsAfter
  dsimp only
  generalize hsorted : List.mergeSort _ _ = sorted
  have hlength := congrArg List.length hsorted
  rw [List.length_mergeSort, List.length_cons] at hlength
  cases sorted with
  | nil => cases hlength
  | cons e es =>
    rw [dropRepeated]
    exact List.cons_ne_nil _ _

/-- Checking a source that is not parsed finds an error. -/
theorem exists_error_of_lint (h : ∀ schema, parse source ≠ .ok schema) : ∃ d ∈ lint source, d.isError = true := by
  cases htok : tokenize source with
  | error e =>
    rw [lint_of_lexError htok]
    exact ⟨_, List.mem_singleton_self _, rfl⟩
  | ok ls =>
    cases hparse : parseTokens source ls with
    | ok schema => exact absurd (parse_ok_iff.2 ⟨ls, htok, hparse⟩) (h schema)
    | error strict =>
      rw [lint_of_parseError htok hparse]
      obtain ⟨e, es, herrors⟩ := List.exists_cons_of_ne_nil (Recovery.errorsAfter_ne_nil source ls strict)
      rw [herrors]
      exact ⟨_, List.mem_cons_self, rfl⟩

/-- The diagnostics of a transaction are errors where its issues are. -/
theorem Transaction.diagnostics_isError (tx : Transaction) (issues : List Issue) :
    (∀ d ∈ tx.diagnostics issues, d.isError = false) ↔ ∀ issue ∈ issues, issue.isError = false := by
  unfold diagnostics
  simp only [List.forall_mem_append, List.forall_mem_map, Diagnostic.isError_ofIssue]
  exact ⟨And.left, fun h => ⟨h, fun issue _ => rfl⟩⟩

theorem Schema.diagnostics_isError {s : Schema} {tx : Transaction} (h : s.transactions = [tx]) :
    (∀ d ∈ s.diagnostics, d.isError = false) ↔ ∀ issue ∈ tx.issues, issue.isError = false := by
  have hone : s.issuesByTransaction = [(tx, tx.issues)] := by
    rw [issuesByTransaction, h]
    rfl
  unfold diagnostics
  rw [hone, ← tx.diagnostics_isError]
  simp only [List.mem_mergeSort, List.flatMap_cons, List.flatMap_nil, List.append_nil]

/-- Of a file with one transaction, checking finds an error unless the transaction is admitted. -/
theorem lint_isError_iff {t : Tree} {directory : String} (hread : t.read (Path.join directory transactionFile) = .ok source)
    (hone : ∀ schema, parse source = .ok schema → schema.transactions.length = 1) :
    (∀ d ∈ lint source, d.isError = false) ↔ ∃ tx, Admitted t directory tx := by
  cases hparse : parse source with
  | error e =>
    have hfail : ∀ schema, parse source ≠ .ok schema := fun schema hok => by cases hparse.symm.trans hok
    obtain ⟨d, hd, herror⟩ := exists_error_of_lint hfail
    constructor
    · exact fun h => absurd (h d hd) (by rw [herror]; decide)
    · rintro ⟨tx, ⟨source', schema, hread', hok, -⟩, -⟩
      obtain rfl := Except.ok.inj (hread.symm.trans hread')
      exact absurd hok (hfail schema)
  | ok schema =>
    obtain ⟨tx, htx⟩ := List.length_eq_one_iff.1 (hone schema hparse)
    rw [lint_of_parse hparse, Schema.diagnostics_isError htx]
    constructor
    · exact fun hvalid => ⟨tx, ⟨source, schema, hread, hparse, by rw [htx]; rfl⟩, hvalid⟩
    · rintro ⟨tx', ⟨source', schema', hread', hparse', hhead⟩, hvalid⟩
      obtain rfl := Except.ok.inj (hread.symm.trans hread')
      obtain rfl := Except.ok.inj (hparse.symm.trans hparse')
      rw [htx] at hhead
      obtain rfl := Option.some.inj hhead
      exact hvalid

/-- What checking reports of a file that is not fixed. -/
def reportOn (t : Tree) (path : String) : FileReport :=
  match t.read path with
  | .error e => ⟨path, [.ofFile (.unreadable e)], 0, 0⟩
  | .ok source => ⟨path, lint source, (fixesOf (lint source)).length, 0⟩

theorem lintFile_apply (path : String) (t : Tree) :
    (lintFile path false : StateM Tree FileReport) t = (reportOn t path, t) := by
  unfold lintFile reportOn
  simp only [bind, StateT.bind, FileAccess.read]
  cases t.read path <;> rfl

theorem errorCount_eq_zero_iff {ds : List Diagnostic} : errorCount ds = 0 ↔ ∀ d ∈ ds, d.isError = false := by
  simp [errorCount]

/-- The command that checks a single file succeeds just if the file is read and has no errors. -/
theorem runLint_code {options : LintOptions} {path : String} (hall : options.all = false) (hfix : options.fix = false)
    (hfiles : options.files = [path]) (environment : Option String) (t : Tree) :
    ((Command.runLint environment options : StateM Tree CommandResult) t).1.code = 0 ↔
      ∃ source, t.read path = .ok source ∧ ∀ d ∈ lint source, d.isError = false := by
  have hlint : (lintFiles [path] false : StateM Tree (List FileReport)) t = ([reportOn t path], t) := by
    unfold lintFiles Path.sort
    rw [List.mergeSort_singleton, mapM_cons_apply, lintFile_apply]
    rfl
  have hcode : ((Command.runLint environment options : StateM Tree CommandResult) t).1.code =
      if errorCount (reportOn t path).diagnostics > 0 then 1 else 0 := by
    unfold Command.runLint Command.lintAndReport
    rw [hall, if_neg Bool.false_ne_true, hfiles, List.isEmpty_cons, if_neg Bool.false_ne_true, hfix, Tree.bind_apply, hlint,
      Tree.bind_apply]
    simp [Tree.pure_apply, LintTotals.of]
  rw [hcode]
  trans errorCount (reportOn t path).diagnostics = 0
  · split <;> omega
  · rw [errorCount_eq_zero_iff]
    unfold reportOn
    cases hread : t.read path with
    | error e =>
      simp [Diagnostic.ofFile, Diagnostic.plain, Diagnostic.isError, Finding.severity]
    | ok source => simp

end Check

/-! ## The gate -/

section Gate

variable {artifact : Artifact} {t : Tree} {directory output : String} {run : Except GenerateError Unit × Tree}

theorem exists_admitted_iff (artifact : Artifact) :
    (∃ tx, Admitted t directory tx) ↔ ∃ text, artifact.textIn t directory = .ok text := by
  simp only [artifact.textIn_eq_ok_iff]
  exact ⟨fun ⟨tx, h⟩ => ⟨_, tx, h, rfl⟩, fun ⟨_, tx, h, _⟩ => ⟨tx, h⟩⟩

theorem Generates.refused_iff (h : Generates artifact t directory output run) :
    Refused run.1 ↔ ¬ ∃ tx, Admitted t directory tx := by
  rw [exists_admitted_iff artifact]
  cases h with
  | @refused e htext =>
    rw [htext]
    exact ⟨fun _ => nofun, fun _ => ⟨e, rfl, Artifact.not_unwritable_of_textIn htext⟩⟩
  | made htext =>
    refine ⟨?_, fun hnot => absurd ⟨_, htext⟩ hnot⟩
    rintro ⟨e, he, -⟩
    cases he
  | unwritten htext =>
    refine ⟨?_, fun hnot => absurd ⟨_, htext⟩ hnot⟩
    rintro ⟨e, he, hne⟩
    exact absurd (Except.error.inj he).symm (hne _ _)

theorem Generates.ok_iff (h : Generates artifact t directory output run) (hwritable : t.Writable output) :
    run.1 = .ok () ↔ ∃ tx, Admitted t directory tx := by
  rw [exists_admitted_iff artifact]
  cases h with
  | refused htext => simp [htext]
  | made htext => simp [htext]
  | @unwritten text _ _ _ hwrite =>
    have := hwritable text
    rw [hwrite] at this
    cases this

theorem Generates.of_not_admitted (h : Generates artifact t directory output run) (hnot : ¬ ∃ tx, Admitted t directory tx) :
    ∃ e, run = (.error e, t) ∧ ∀ path cause, e ≠ .unwritable path cause := by
  rw [exists_admitted_iff artifact] at hnot
  cases h with
  | refused htext => exact ⟨_, rfl, Artifact.not_unwritable_of_textIn htext⟩
  | made htext | unwritten htext => exact absurd ⟨_, htext⟩ hnot

theorem Generates.written (h : Generates artifact t directory output run) (ht : t.LinkFree) (hok : run.1 = .ok ()) :
    ∃ tx names, Admitted t directory tx ∧ Written t run.2 output names (artifact.render tx) := by
  cases h with
  | made htext hwrite =>
    obtain ⟨tx, hadmitted, rfl⟩ := artifact.textIn_eq_ok_iff.1 htext
    obtain ⟨names, hwritten⟩ := written_of_writeArtifact ht hwrite
    exact ⟨tx, names, hadmitted, hwritten⟩
  | refused | unwritten => cases hok

theorem Generates.unchanged (h : Generates artifact t directory output run) (hfail : run.1 ≠ .ok ()) :
    (∀ names, run.2.file? names = t.file? names) ∧ run.2.content? output = t.content? output := by
  cases h with
  | refused => exact ⟨fun _ => rfl, rfl⟩
  | made => exact absurd rfl hfail
  | unwritten _ hwrite => exact unwritten_of_writeArtifact hwrite

end Gate

theorem Tree.Written.read {t t' : Tree} {path text : String} {names : List String} (h : Written t t' path names text) :
    t'.read path = .ok text := by
  obtain ⟨mode, hfind⟩ := h.content
  rw [read_eq h.place, hfind]

/-- An artifact is refused just if the file of its directory cannot be read or parsed or its first transaction has errors,
and made otherwise, unless it cannot be written. One that is made is in its file, and no other file changes; if none is
made, every file stays as it is. Checking a file that has one transaction finds an error just if artifacts are refused. -/
theorem generate_gate {t : Tree} (ht : t.LinkFree) (artifact : Artifact) (directory output : String) :
    let run := (artifact.generate directory output : StateM Tree (Except GenerateError Unit)) t
    let path := Path.join directory transactionFile
    (Refused run.1 ↔ ¬ ∃ tx, Admitted t directory tx) ∧
    (t.Writable output → (run.1 = .ok () ↔ ∃ tx, Admitted t directory tx)) ∧
    (run.1 = .ok () → ∃ tx names, Admitted t directory tx ∧ Written t run.2 output names (artifact.render tx) ∧
      run.2.read output = .ok (artifact.render tx)) ∧
    (run.1 ≠ .ok () → (∀ names, run.2.file? names = t.file? names) ∧ run.2.content? output = t.content? output) ∧
    ((∀ source schema, t.read path = .ok source → parse source = .ok schema → schema.transactions.length = 1) →
      (∀ source, t.read path = .ok source → (¬ Refused run.1 ↔ ∀ d ∈ lint source, d.isError = false)) ∧
      ∀ environment (options : LintOptions), options.all = false → options.fix = false → options.files = [path] →
        (¬ Refused run.1 ↔ ((Command.runLint environment options : StateM Tree CommandResult) t).1.code = 0)) := by
  intro run path
  have h : Generates artifact t directory output run := generates artifact t directory output
  refine ⟨h.refused_iff, h.ok_iff, fun hok => ?_, h.unchanged, fun hone => ?_⟩
  · obtain ⟨tx, names, hadmitted, hwritten⟩ := h.written ht hok
    exact ⟨tx, names, hadmitted, hwritten, hwritten.read⟩
  · have hlint : ∀ source, t.read path = .ok source → (¬ Refused run.1 ↔ ∀ d ∈ lint source, d.isError = false) := by
      intro source hread
      rw [h.refused_iff, not_not, lint_isError_iff hread fun schema => hone source schema hread]
    refine ⟨hlint, fun environment options hall hfix hfiles => ?_⟩
    rw [runLint_code hall hfix hfiles environment t]
    constructor
    · intro hnot
      obtain ⟨tx, ⟨source, schema, hread, -⟩, -⟩ := not_not.1 (mt h.refused_iff.2 hnot)
      exact ⟨source, hread, (hlint source hread).1 hnot⟩
    · rintro ⟨source, hread, hclean⟩
      exact (hlint source hread).2 hclean

/-- The derivation of `transaction T{actor A{}message M A->A{}}`. -/
def selfMessage : SchemaTree where
  first :=
    { header := ⟨.placed () "transaction" ⟨0, 11, 1, 1⟩, .placed "T" "T" ⟨12, 1, 1, 13⟩, none, .placed () "\x7b" ⟨13, 1, 1, 14⟩⟩
      declarations := [
        .actor ⟨.placed () "actor" ⟨14, 5, 1, 15⟩, .placed "A" "A" ⟨20, 1, 1, 21⟩, .placed () "\x7b" ⟨21, 1, 1, 22⟩, none,
          .placed () "\x7d" ⟨22, 1, 1, 23⟩⟩,
        .message ⟨.placed () "message" ⟨23, 7, 1, 24⟩, .placed "M" "M" ⟨31, 1, 1, 32⟩, .placed "A" "A" ⟨33, 1, 1, 34⟩,
          .placed () "->" ⟨34, 2, 1, 35⟩, .placed "A" "A" ⟨36, 1, 1, 37⟩, .placed () "\x7b" ⟨37, 1, 1, 38⟩, [],
          .placed () "\x7d" ⟨38, 1, 1, 39⟩⟩]
      right := .placed () "\x7d" ⟨39, 1, 1, 40⟩ }
  more := []

theorem parse_selfMessage : parse "transaction T\x7bactor A\x7b\x7dmessage M A->A\x7b\x7d\x7d" = .ok selfMessage.schema :=
  parse_ok_iff_derivation.2 ⟨selfMessage, by cbv, rfl⟩

theorem parse_emptyTransaction : parse "transaction T\x7b\x7d" = .ok emptyTransaction.schema :=
  parse_ok_iff_derivation.2 ⟨emptyTransaction, by cbv, rfl⟩

theorem admitted_selfMessage {t : Tree} {directory : String}
    (hread : t.read (Path.join directory transactionFile) = .ok "transaction T\x7bactor A\x7b\x7dmessage M A->A\x7b\x7d\x7d") :
    Admitted t directory selfMessage.first.transaction := by
  refine ⟨⟨_, _, hread, parse_selfMessage, rfl⟩, ?_⟩
  rw [← errorsOf_eq_nil_iff]
  decide

theorem not_admitted_emptyTransaction {t : Tree} {directory : String}
    (hread : t.read (Path.join directory transactionFile) = .ok "transaction T\x7b\x7d") : ¬ ∃ tx, Admitted t directory tx := by
  rintro ⟨tx, ⟨source, schema, hsource, hparse, hhead⟩, hvalid⟩
  obtain rfl := Except.ok.inj (hread.symm.trans hsource)
  obtain rfl := Except.ok.inj (parse_emptyTransaction.symm.trans hparse)
  obtain rfl := Option.some.inj hhead
  rw [← errorsOf_eq_nil_iff] at hvalid
  exact absurd hvalid (by decide)

/-- Two directories, one with the transaction above and one with `transaction T{}`, and an old artifact. -/
def soundAndEmpty : Tree :=
  let directory (source : String) : Node := .directory [(transactionFile, .file (.text source) none)] none
  ⟨[("sound", directory "transaction T\x7bactor A\x7b\x7dmessage M A->A\x7b\x7d\x7d"), ("empty", directory "transaction T\x7b\x7d"),
    ("t.md", .file (.text "old") none)]⟩

theorem read_soundAndEmpty :
    soundAndEmpty.read "sound/transaction.omt" = .ok "transaction T\x7bactor A\x7b\x7dmessage M A->A\x7b\x7d\x7d" ∧
    soundAndEmpty.read "empty/transaction.omt" = .ok "transaction T\x7b\x7d" := by
  constructor
  · exact Tree.read_of_find? (by decide) rfl (by decide) rfl
  · exact Tree.read_of_find? (by decide) rfl (by decide) rfl

/-- The sound transaction takes the place of the old artifact; the empty one leaves it, and only checking that one fails. -/
theorem gate_of_sound_and_empty :
    let run := fun directory : String =>
      (Artifact.markdown.generate directory "t.md" : StateM Tree (Except GenerateError Unit)) soundAndEmpty
    let check := fun path : String =>
      (Command.runLint none ⟨[path], false, false, "protocol", .text, false⟩ : StateM Tree CommandResult) soundAndEmpty
    soundAndEmpty.LinkFree ∧ soundAndEmpty.Writable "t.md" ∧
    (run "sound").1 = .ok () ∧ (run "sound").2.read "t.md" = .ok (Markdown.render selfMessage.first.transaction) ∧
    Refused (run "empty").1 ∧ (run "empty").2.content? "t.md" = some (.text "old") ∧
    (check "sound/transaction.omt").1.code = 0 ∧ (check "empty/transaction.omt").1.code ≠ 0 := by
  intro run check
  have hfree : soundAndEmpty.LinkFree := by
    apply Tree.linkFree_of_all
    simp [Tree.root, soundAndEmpty, Node.All, Node.AllIn]
  have hwritable : soundAndEmpty.Writable "t.md" := by
    intro text
    cbv
  have hadmitted : Admitted soundAndEmpty "sound" selfMessage.first.transaction := admitted_selfMessage read_soundAndEmpty.1
  obtain ⟨-, hok, hmade, -, hcheck⟩ := generate_gate hfree .markdown "sound" "t.md"
  obtain ⟨hrefused, -, -, hkept, hcheck'⟩ := generate_gate hfree .markdown "empty" "t.md"
  have hmarkdown : (run "sound").1 = .ok () := (hok hwritable).2 ⟨_, hadmitted⟩
  obtain ⟨tx, names, htx, -, hread⟩ := hmade hmarkdown
  obtain rfl := Except.ok.inj ((admitted_iff.1 hadmitted).1.symm.trans (admitted_iff.1 htx).1)
  have hempty : Refused (run "empty").1 := hrefused.2 (not_admitted_emptyTransaction read_soundAndEmpty.2)
  have hfail : (run "empty").1 ≠ .ok () := by
    intro hmade
    obtain ⟨e, he, -⟩ := hempty
    cases he.symm.trans hmade
  have hold : soundAndEmpty.read "t.md" = .ok "old" := by cbv
  have hone : ∀ source schema, soundAndEmpty.read "sound/transaction.omt" = .ok source → parse source = .ok schema →
      schema.transactions.length = 1 := by
    intro source schema hread hparse
    obtain rfl := Except.ok.inj (read_soundAndEmpty.1.symm.trans hread)
    obtain rfl := Except.ok.inj (parse_selfMessage.symm.trans hparse)
    rfl
  have hone' : ∀ source schema, soundAndEmpty.read "empty/transaction.omt" = .ok source → parse source = .ok schema →
      schema.transactions.length = 1 := by
    intro source schema hread hparse
    obtain rfl := Except.ok.inj (read_soundAndEmpty.2.symm.trans hread)
    obtain rfl := Except.ok.inj (parse_emptyTransaction.symm.trans hparse)
    rfl
  refine ⟨hfree, hwritable, hmarkdown, hread, hempty, ?_, ?_, ?_⟩
  · exact (hkept hfail).2.trans (Tree.content?_eq_text_iff.2 hold)
  · refine ((hcheck hone).2 none _ rfl rfl rfl).1 ?_
    rintro ⟨e, he, -⟩
    cases hmarkdown.symm.trans he
  · exact fun hzero => ((hcheck' hone').2 none _ rfl rfl rfl).2 hzero hempty

end Parley
