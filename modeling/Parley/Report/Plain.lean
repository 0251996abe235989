/-
Diagnostics on one line each: path, place, severity, code and message, then the suggestion and a
mark for those that can be fixed.
-/
import Parley.Lint.Diagnostic

namespace Parley.Report

/-- Where a diagnostic is: a path, and a place in the file unless it is about the whole file. -/
def location (path : String) (span : Span) : String :=
  if span.line = 0 then path else path ++ ":" ++ span.place

def plain (path : String) (d : Diagnostic) : String :=
  location path d.span ++ ": " ++ d.finding.severity.label ++ "[" ++ d.finding.code ++ "]: " ++
    d.hintedMessage ++ (if d.fix.isSome then " [fixable]" else "")

end Parley.Report
