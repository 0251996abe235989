/-
Diagnostics: one for everything that is wrong with a source, with a suggestion and a fix where a
reference misses a declared name by little.
-/
import Parley.Analysis.Issue
import Parley.Files.Error
import Parley.Lint.Style
import Parley.Parser.Parse
import Parley.Text.Edit

namespace Parley

inductive Finding
  | lex (e : LexError)
  | parse (e : ParseError)
  | unreadable (e : FileError)
  | unwritable (e : FileError)
  | violation (v : Violation)
  | style (flaw : StyleFlaw)
deriving DecidableEq, Repr

namespace Finding

def code : Finding → String
  | lex _ => "E010"
  | parse _ => "E011"
  | unreadable _ | unwritable _ => "E012"
  | violation v => v.code
  | style (.misspelled ..) => "W010"
  | style (.unused ..) => "W011"

/-- Flaws of style are warnings; violations have a severity of their own. -/
def severity : Finding → Severity
  | violation v => v.severity
  | style _ => .warning
  | _ => .error

def message : Finding → String
  | lex e => e.summary
  | parse e => e.summary
  | unreadable e => "cannot read file: " ++ e.message
  | unwritable e => "cannot write fixes: " ++ e.message
  | violation v => v.message
  | style flaw => flaw.message

end Finding

/-- A finding with its place, or with no place if it is about the file as a whole. -/
structure Diagnostic where
  finding : Finding
  span : Span
  /-- The declared name that was probably meant. -/
  suggestion : Option String
  /-- The edit that puts the suggested name in. -/
  fix : Option Edit
deriving DecidableEq, Repr

namespace Diagnostic

def plain (finding : Finding) (span : Span) : Diagnostic := ⟨finding, span, none, none⟩

def ofFile (finding : Finding) : Diagnostic := plain finding .nowhere

def ofSyntaxError : SyntaxError → Diagnostic
  | .lex e => plain (.lex e) e.span
  | .parse e => plain (.parse e) e.span

def ofStyleIssue (issue : StyleIssue) : Diagnostic := plain (.style issue.flaw) issue.span

def isError (d : Diagnostic) : Bool := d.finding.severity == .error

def hintedMessage (d : Diagnostic) : String :=
  d.finding.message ++ (d.suggestion.elim "" fun name => " (did you mean `" ++ name ++ "`?)")

end Diagnostic

def errorCount (diagnostics : List Diagnostic) : Nat := (diagnostics.filter Diagnostic.isError).length

def warningCount (diagnostics : List Diagnostic) : Nat := diagnostics.length - errorCount diagnostics

def fixesOf (diagnostics : List Diagnostic) : List Edit := diagnostics.filterMap (·.fix)

end Parley
