/-
Formatting keeps verdicts. The canonical text of what a source was parsed to brings declarations in
groups and moves every place, but it is read back with the same structure, and nothing that is found
in a schema depends on more: the issues are the same and come in the same order, and the diagnostics
say the same, up to their order.
-/
import Parley.Proofs.Lint.Account

namespace Parley

/-- What a diagnostic says, wherever it says so. -/
structure Verdict where
  code : String
  severity : Severity
  /-- The message; where it would name a place it names `0:0`. -/
  message : String
  suggestion : Option String
  /-- The text that its fix puts in. -/
  replacement : Option String
deriving DecidableEq, Repr

def Diagnostic.verdict (d : Diagnostic) : Verdict :=
  ⟨d.finding.code, d.finding.severity, d.finding.bare.message, d.suggestion, d.fix.map (·.text)⟩

@[simp] theorem Violation.bare_bare (v : Violation) : v.bare.bare = v.bare := by
  cases v <;> rfl

@[simp] theorem Violation.code_bare (v : Violation) : v.bare.code = v.code := by
  cases v <;> rfl

@[simp] theorem Finding.bare_bare (f : Finding) : f.bare.bare = f.bare := by
  cases f <;> simp [bare]

@[simp] theorem Finding.code_bare (f : Finding) : f.bare.code = f.code := by
  cases f <;> simp [bare, code]

/-- A verdict is about a diagnostic without its places. -/
theorem Diagnostic.verdict_bare (d : Diagnostic) : d.bare.verdict = d.verdict := by
  have htext : ∀ e : Edit, e.bare.text = e.text := fun _ => rfl
  simp only [verdict, bare, Finding.code_bare, Finding.severity_bare, Finding.bare_bare, Option.map_map, Function.comp_def,
    htext]

theorem Schema.issues_bare (s : Schema) : s.bare.issues = s.issues.map Issue.bare := by
  have hissues : s.bare.issuesByTransaction = s.issuesByTransaction.map fun x => (x.1.bare, x.2.map Issue.bare) :=
    issuesAfter_bare .empty s.transactions
  simp only [issues, hissues, List.flatMap_map, List.map_flatMap]

/-- Schemas of one structure break the same rules in the same order. -/
theorem Schema.violations_of_bare_eq {s s' : Schema} (h : s.bare = s'.bare) :
    s.issues.map (·.violation.bare) = s'.issues.map (·.violation.bare) := by
  have hissues : s.issues.map Issue.bare = s'.issues.map Issue.bare := by
    rw [← issues_bare, ← issues_bare, h]
  simpa only [List.map_map, Function.comp_def, Issue.bare] using congrArg (List.map Issue.violation) hissues

/-- The texts of schemas of one structure get the same verdicts. -/
theorem verdicts_of_bare_eq {source source' : String} {s s' : Schema} (hs : parse source = .ok s)
    (hs' : parse source' = .ok s') (h : s.bare = s'.bare) :
    ((lint source).map Diagnostic.verdict).Perm ((lint source').map Diagnostic.verdict) := by
  have hperm := (Schema.diagnostics_of_bare_eq h).map Diagnostic.verdict
  rw [lint_of_parse hs, lint_of_parse hs']
  simpa only [List.map_map, Function.comp_def, Diagnostic.verdict_bare] using hperm

/-- The canonical text of a source is parsed, breaks the same rules in the same order and gets the same
verdicts as the source. -/
theorem print_keeps_verdicts {source : String} {s : Schema} (h : parse source = .ok s) :
    ∃ s', parse s.print = .ok s' ∧ s'.issues.map (·.violation.bare) = s.issues.map (·.violation.bare) ∧
      ((lint s.print).map Diagnostic.verdict).Perm ((lint source).map Diagnostic.verdict) := by
  obtain ⟨s', hs', hbare⟩ := parse_print (wellFormed_of_parse h)
  refine ⟨s', hs', ?_, ?_⟩
  · exact Schema.violations_of_bare_eq hbare
  · exact verdicts_of_bare_eq hs' h hbare

/-- Wherever the call of `g` is moved, it is unresolved, and `f` is put in for it. -/
theorem verdicts_of_wrongCall :
    parse "transaction T\x7bfunction f()\x7b\x7dblock A\x7bcall g(1)\x7d\x7d" = .ok wrongCall.schema ∧
      (∃ s', parse wrongCall.schema.print = .ok s' ∧ s'.issues.map (·.violation.bare) =
        [.unresolved .function "g", .missingActor "T", .missingMessage "T"]) ∧
      ⟨"E002", .error, "unknown function `g`", some "f", some "f"⟩ ∈ (lint wrongCall.schema.print).map Diagnostic.verdict := by
  obtain ⟨s', hs', hissues, hverdicts⟩ := print_keeps_verdicts parse_wrongCall
  refine ⟨parse_wrongCall, ⟨s', hs', hissues.trans (by decide)⟩, hverdicts.symm.subset ?_⟩
  rw [lint_of_parse parse_wrongCall]
  have hfinding : (⟨.violation (.unresolved .function "g"), ⟨41, 1, 1, 42⟩, some "f", some ⟨41, 42, "f"⟩⟩ : Diagnostic) ∈
      wrongCall.schema.findings := by
    cbv
    exact .head _
  exact List.mem_map.2 ⟨_, wrongCall.schema.diagnostics_perm.symm.subset hfinding, rfl⟩

end Parley
