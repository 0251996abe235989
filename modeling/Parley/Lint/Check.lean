/-
Checking a source: its syntax errors, or else the issues of its transactions and their flaws of
style, in the order of the text. An unresolved reference gets a suggestion from the names of the
category it needs.
-/
import Parley.Analysis.Validation
import Parley.Lint.Diagnostic
import Parley.Lint.Suggestion
import Parley.Parser.Recovery

namespace Parley

def Edit.replacing (span : Span) (text : String) : Edit := ⟨span.offset, span.stop, text⟩

/-- The diagnostic of an issue, given the names that its transaction declares. -/
def Diagnostic.ofIssue (symbols : Symbols) (issue : Issue) : Diagnostic :=
  let d := Diagnostic.plain (.violation issue.violation) issue.span
  match issue.violation with
  | .unresolved category name =>
    match Suggestion.among name (symbols.namespaceOf category).names with
    | some s =>
      { d with
        suggestion := some s.name
        fix := if s.fixable then some (.replacing issue.span s.name) else none }
    | none => d
  | _ => d

def Transaction.diagnostics (tx : Transaction) (issues : List Issue) : List Diagnostic :=
  let symbols := tx.symbols
  issues.map (Diagnostic.ofIssue symbols) ++ tx.styleIssues.map Diagnostic.ofStyleIssue

/-- The diagnostics of a schema in the order of the text. -/
def Schema.diagnostics (s : Schema) : List Diagnostic :=
  (s.issuesByTransaction.flatMap fun (tx, issues) => tx.diagnostics issues).mergeSort
    fun a b => decide (a.span.offset ≤ b.span.offset)

def lint (source : String) : List Diagnostic :=
  let recovered := recover source
  match recovered.schema with
  | none => recovered.errors.map Diagnostic.ofSyntaxError
  | some schema => schema.diagnostics

end Parley
