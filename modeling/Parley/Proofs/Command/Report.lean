/-
Reports of one line for each diagnostic. Without snippets and fixes the command that checks files writes
the diagnostics of one file after the other, each on a line of its own, and then the totals. The totals
count these lines, and the exit code is that of the count of errors.
-/
import Parley.Proofs.Artifact.Gate
import Parley.Proofs.Lint.OneLine

namespace Parley

/-! ## Totals -/

/-- The diagnostics of reports, each with the path of its file. -/
def diagnosed (reports : List FileReport) : List (String × Diagnostic) :=
  reports.flatMap fun r => r.diagnostics.map fun d => (r.path, d)

theorem diagnosed_cons (r : FileReport) (reports : List FileReport) :
    diagnosed (r :: reports) = r.diagnostics.map (fun d => (r.path, d)) ++ diagnosed reports := List.flatMap_cons

/-- Counting the diagnostics of a kind file by file counts them all. -/
theorem foldl_length_filter (p : Diagnostic → Bool) (reports : List FileReport) (n : Nat) :
    reports.foldl (fun n r => n + (r.diagnostics.filter p).length) n = n + ((diagnosed reports).filter fun x => p x.2).length := by
  induction reports generalizing n with
  | nil => rfl
  | cons r reports ih =>
    rw [List.foldl_cons, ih, diagnosed_cons, List.filter_append, List.length_append, List.filter_map, List.length_map, Nat.add_assoc]
    rfl

theorem errors_of (reports : List FileReport) :
    (LintTotals.of reports).errors = ((diagnosed reports).filter fun x => x.2.isError).length :=
  (foldl_length_filter Diagnostic.isError reports 0).trans (Nat.zero_add _)

theorem warnings_of (reports : List FileReport) :
    (LintTotals.of reports).warnings = ((diagnosed reports).filter fun x => !x.2.isError).length := by
  simp only [LintTotals.of, warningCount_eq]
  exact (foldl_length_filter (fun d => !d.isError) reports 0).trans (Nat.zero_add _)

/-- Every diagnostic is counted once. -/
theorem length_diagnosed (reports : List FileReport) :
    (diagnosed reports).length = (LintTotals.of reports).errors + (LintTotals.of reports).warnings := by
  rw [errors_of, warnings_of]
  exact List.length_eq_length_filter_add _

namespace Command

/-! ## The report of a run -/

/-- Doing what changes nothing for one thing after the other changes nothing. -/
theorem mapM_apply {α β : Type} {f : α → StateM Tree β} {g : α → β} {t : Tree} (h : ∀ x, f x t = (g x, t)) (xs : List α) :
    (xs.mapM f) t = (xs.map g, t) := by
  induction xs with
  | nil => rfl
  | cons x xs ih => rw [mapM_cons_apply, h, ih, List.map_cons]

theorem lintFiles_unfixed (files : List String) (t : Tree) :
    (lintFiles files false : StateM Tree (List FileReport)) t = ((Path.sort files).map (reportOn t), t) :=
  mapM_apply (fun path => lintFile_apply path t) _

theorem reportFiles_plain (reports : List FileReport) (t : Tree) :
    (reportFiles false reports : StateM Tree String) t = (String.join (reports.map (reportFile none)), t) := by
  have hfiles : ∀ r, (do return reportFile (← sourceFor false r.path) r : StateM Tree String) t = (reportFile none r, t) := fun _ => rfl
  unfold reportFiles
  rw [Tree.bind_apply, mapM_apply hfiles]
  rfl

/-- Files without fixes are reported by the lines of their diagnostics. -/
theorem join_reportFile {reports : List FileReport} (h : ∀ r ∈ reports, r.fixed = 0) :
    String.join (reports.map (reportFile none)) = Lines.unlines ((diagnosed reports).map fun x => Report.plain x.1 x.2) := by
  induction reports with
  | nil => rfl
  | cons r reports ih =>
    obtain ⟨hr, hreports⟩ := List.forall_mem_cons.1 h
    have hfile : reportFile none r = Lines.unlines (r.diagnostics.map (Report.plain r.path)) := by
      unfold reportFile reportDiagnostics
      simp [hr]
    have hlines : (r.diagnostics.map fun d => (r.path, d)).map (fun x => Report.plain x.1 x.2) =
        r.diagnostics.map (Report.plain r.path) := by
      rw [List.map_map]
      rfl
    rw [List.map_cons, String.join_cons, ih hreports, hfile, diagnosed_cons, List.map_append, hlines, Lines.unlines_append]

/-- Checking files without fixes writes a line for each diagnostic and the totals, and leaves the tree alone. -/
theorem lintAndReport_plain {options : LintOptions} (htext : options.format = .text) (hplain : options.pretty = false)
    (hfix : options.fix = false) (files : List String) (t : Tree) :
    let reports := (Path.sort files).map (reportOn t)
    let totals := LintTotals.of reports
    (lintAndReport options files : StateM Tree CommandResult) t =
      (⟨if totals.errors > 0 then 1 else 0,
        ⟨Lines.unlines ((diagnosed reports).map fun x => Report.plain x.1 x.2) ++ reportTotals files false totals, ""⟩⟩, t) := by
  intro reports totals
  have hunfixed : ∀ r ∈ reports, r.fixed = 0 := List.forall_mem_map.2 fun path _ => by
    unfold reportOn
    cases t.read path <;> rfl
  have hreport : (report options files reports : StateM Tree String) t =
      (Lines.unlines ((diagnosed reports).map fun x => Report.plain x.1 x.2) ++ reportTotals files false totals, t) := by
    unfold report
    simp only [htext, hplain, hfix]
    rw [Tree.bind_apply, reportFiles_plain, join_reportFile hunfixed]
    rfl
  unfold lintAndReport
  rw [hfix, Tree.bind_apply, lintFiles_unfixed, Tree.bind_apply, hreport]
  rfl

end Command

/-- What is wrong with a source is said on one line for each path that is one. So checking files that can be read, in text
and without fixes, writes before the totals as many lines as these count errors and warnings, one for each diagnostic of one
file after the other; as many of the diagnostics are errors as the totals count, and the command succeeds just if none is. -/
theorem plain_report_by_lines :
    (∀ source, ∀ d ∈ lint source, OneLine d.finding.message ∧ (∀ name ∈ d.suggestion, OneLine name) ∧
      ∀ path, OneLine path → OneLine (Report.plain path d)) ∧
    ∀ (environment : Option String) (options : LintOptions) (t : Tree),
      options.format = .text → options.pretty = false → options.fix = false → Command.filesOf options t ≠ [] →
      (∀ path ∈ Command.filesOf options t, ∃ source, t.read path = .ok source) →
      let reports := (Path.sort (Command.filesOf options t)).map (reportOn t)
      let found := diagnosed reports
      let lines := found.map fun x => Report.plain x.1 x.2
      let totals := LintTotals.of reports
      let run := (Command.runLint environment options : StateM Tree CommandResult) t
      run.1.output = ⟨Lines.unlines lines ++ Command.reportTotals (Command.filesOf options t) false totals, ""⟩ ∧ run.2 = t ∧
      (∀ r ∈ reports, ∃ source, t.read r.path = .ok source ∧ r.diagnostics = lint source) ∧
      lines.length = totals.errors + totals.warnings ∧
      (found.filter fun x => x.2.isError).length = totals.errors ∧
      (run.1.code = 0 ↔ totals.errors = 0) ∧
      ((∀ path ∈ Command.filesOf options t, OneLine path) →
        (∀ line ∈ lines, OneLine line) ∧ (Lines.unlines lines).toList.count '\n' = totals.errors + totals.warnings) := by
  have hterse : ∀ source, ∀ d ∈ lint source, d.Terse := fun source => terse_of_mem_lint
  refine ⟨fun source d hd => ?_, ?_⟩
  · exact ⟨(hterse source d hd).message, (hterse source d hd).suggestion, fun path hpath => .plain (hterse source d hd) hpath⟩
  intro environment options t htext hplain hfix hfiles hread reports found lines totals run
  have hrun : run = _ := (Command.runLint_of_files environment hfiles).trans (Command.lintAndReport_plain htext hplain hfix _ t)
  have hreports : ∀ r ∈ reports, r.path ∈ Command.filesOf options t ∧ ∃ source, t.read r.path = .ok source ∧ r.diagnostics = lint source := by
    refine List.forall_mem_map.2 fun path hpath => ?_
    have hpath : path ∈ Command.filesOf options t := List.mem_mergeSort.1 hpath
    obtain ⟨source, hsource⟩ := hread path hpath
    unfold reportOn
    rw [hsource]
    exact ⟨hpath, source, hsource, rfl⟩
  have hlength : lines.length = totals.errors + totals.warnings := (List.length_map _).trans (length_diagnosed reports)
  refine ⟨by rw [hrun], by rw [hrun], fun r hr => (hreports r hr).2, hlength, (errors_of reports).symm, ?_, fun hpaths => ?_⟩
  · rw [hrun]
    show (if totals.errors > 0 then 1 else 0) = 0 ↔ _
    split <;> omega
  · have hlines : ∀ line ∈ lines, OneLine line := by
      refine List.forall_mem_map.2 fun x hx => ?_
      obtain ⟨r, hr, hx⟩ := List.mem_flatMap.1 hx
      obtain ⟨d, hd, rfl⟩ := List.mem_map.1 hx
      obtain ⟨hpath, source, -, hdiagnostics⟩ := hreports r hr
      exact .plain (hterse source d (hdiagnostics ▸ hd)) (hpaths _ hpath)
    exact ⟨hlines, (Lines.count_unlines hlines).trans hlength⟩

/-- A file that starts with a string of two lines, and a sound one with two flaws of style. -/
def quotedAndFlawed : Tree :=
  ⟨[("quoted.omt", .file (.text "\"x\\ny\"") none),
    ("flawed.omt", .file (.text "transaction T\x7bactor a\x7b\x7dmessage M a->a\x7b\x7d\x7d") none)]⟩

theorem lint_quoted : lint "\"x\\ny\"" =
    [.plain (.parse ⟨⟨0, 6, 1, 1⟩, [.construct .transaction], some (.string "x\ny")⟩) ⟨0, 6, 1, 1⟩] := by
  cbv

theorem lint_flawed : lint "transaction T\x7bactor a\x7b\x7dmessage M a->a\x7b\x7d\x7d" =
    [.plain (.style (.misspelled .actor "a")) ⟨20, 1, 1, 21⟩, .plain (.style (.unused .message "M")) ⟨31, 1, 1, 32⟩] := by
  cbv

/-- What is found in the two files. -/
def quotedAndFlawedReports : List FileReport :=
  [⟨"flawed.omt", [.plain (.style (.misspelled .actor "a")) ⟨20, 1, 1, 21⟩, .plain (.style (.unused .message "M")) ⟨31, 1, 1, 32⟩],
      0, 0⟩,
    ⟨"quoted.omt", [.plain (.parse ⟨⟨0, 6, 1, 1⟩, [.construct .transaction], some (.string "x\ny")⟩) ⟨0, 6, 1, 1⟩], 0, 0⟩]

theorem lines_of_quotedAndFlawed : (diagnosed quotedAndFlawedReports).map (fun x => Report.plain x.1 x.2) =
    ["flawed.omt:1:21: warning[W010]: actor `a` should be UpperCamelCase (`A`)",
      "flawed.omt:1:32: warning[W011]: message `M` is never sent",
      "quoted.omt:1:1: error[E011]: unexpected `\"x\\ny\"`, expected transaction"] := by
  simp only [quotedAndFlawedReports, diagnosed_cons, List.map_append, List.map_cons, List.map_nil]
  rfl

theorem totals_of_quotedAndFlawed :
    Command.reportTotals ["flawed.omt", "quoted.omt"] false (LintTotals.of quotedAndFlawedReports) =
      Lines.unlines ["", "1 error(s), 2 warning(s)"] := rfl

/-- The string is shown on the line of its error, behind the lines of the other file. -/
theorem report_of_quotedAndFlawed :
    let run := (Command.runLint none ⟨["flawed.omt", "quoted.omt"], false, false, "protocol", .text, false⟩ :
      StateM Tree CommandResult) quotedAndFlawed
    run.1.output.out = Lines.unlines
      ["flawed.omt:1:21: warning[W010]: actor `a` should be UpperCamelCase (`A`)",
        "flawed.omt:1:32: warning[W011]: message `M` is never sent",
        "quoted.omt:1:1: error[E011]: unexpected `\"x\\ny\"`, expected transaction",
        "", "1 error(s), 2 warning(s)"] ∧
    run.1.code ≠ 0 := by
  have hquoted : quotedAndFlawed.read "quoted.omt" = .ok "\"x\\ny\"" :=
    Tree.read_of_find? (by decide) rfl (by decide) rfl
  have hflawed : quotedAndFlawed.read "flawed.omt" = .ok "transaction T\x7bactor a\x7b\x7dmessage M a->a\x7b\x7d\x7d" :=
    Tree.read_of_find? (by decide) rfl (by decide) rfl
  have hsort : Path.sort ["flawed.omt", "quoted.omt"] = ["flawed.omt", "quoted.omt"] :=
    List.mergeSort_of_pairwise (by decide)
  have hreports : (Path.sort ["flawed.omt", "quoted.omt"]).map (reportOn quotedAndFlawed) = quotedAndFlawedReports := by
    simp only [hsort, List.map_cons, List.map_nil, reportOn, hquoted, hflawed, lint_quoted, lint_flawed]
    rfl
  obtain ⟨hout, -, -, -, -, hcode, -⟩ := plain_report_by_lines.2 none
    ⟨["flawed.omt", "quoted.omt"], false, false, "protocol", .text, false⟩ quotedAndFlawed rfl rfl rfl (List.cons_ne_nil _ _)
    (List.forall_mem_cons.2 ⟨⟨_, hflawed⟩, List.forall_mem_cons.2 ⟨⟨_, hquoted⟩, nofun⟩⟩)
  have hfiles : Command.filesOf ⟨["flawed.omt", "quoted.omt"], false, false, "protocol", .text, false⟩ quotedAndFlawed =
      ["flawed.omt", "quoted.omt"] := rfl
  rw [hfiles, hreports] at hout hcode
  refine ⟨?_, ?_⟩
  · rw [hout, lines_of_quotedAndFlawed, totals_of_quotedAndFlawed]
    exact (Lines.unlines_append _ _).symm
  · rw [Ne, hcode]
    decide

end Parley
