/-
The command that checks files. Its report is text, one line or one snippet for a diagnostic, or
JSON; the exit code tells whether there are errors.
-/
import Parley.Command.Arguments
import Parley.Command.Output
import Parley.Files.Discovery
import Parley.Report.LintJson
import Parley.Report.Snippet

namespace Parley.Command

/-- What is written when there is nothing to check; it shows the environment's protocol directory. -/
def lintHelp (environment : Option String) : String :=
  Lines.unlines
    ["Lint transaction files for errors and warnings",
      "",
      "Usage: lint [OPTIONS] [FILES]...",
      "",
      "Arguments:",
      "  [FILES]...  Files to lint",
      "",
      "Options:",
      "      --all                          Lint every transaction file under the protocol directory",
      "      --fix                          Rewrite unambiguous single-character typos in place",
      "      --protocol-dir <PROTOCOL_DIR>  Protocol directory searched by --all " ++
        "[env: OMERTA_PROTOCOL_DIR=" ++ environment.getD "" ++ "] [default: ./protocol]",
      "      --format <FORMAT>              Report format [default: text] [possible values: text, json]",
      "      --pretty                       Show annotated source snippets instead of one line per diagnostic",
      "  -h, --help                         Print help"]

/-- The diagnostics of a file in text; snippets need the source. -/
def reportDiagnostics (source : Option String) (r : FileReport) : String :=
  match source with
  | some source => Report.pretty r.path source r.diagnostics
  | none => Lines.unlines (r.diagnostics.map (Report.plain r.path))

def reportFile (source : Option String) (r : FileReport) : String :=
  reportDiagnostics source r ++
    if r.fixed > 0 then "Fixed " ++ toString r.fixed ++ " issue(s) in " ++ r.path ++ "\n" else ""

def fixHint (files : List String) (fixable : Nat) : String :=
  "\n" ++ toString fixable ++ " issue(s) can be auto-fixed. " ++
    match files with
    | [file] => "Run:\n  omerta lint --fix " ++ file ++ "\n"
    | _ => "Run with --fix to apply.\n"

/-- The counts at the end of a report; nothing if there is nothing to report. -/
def reportTotals (files : List String) (fix : Bool) (totals : LintTotals) : String :=
  if totals.errors = 0 ∧ totals.warnings = 0 then ""
  else
    "\n" ++ toString totals.errors ++ " error(s), " ++ toString totals.warnings ++ " warning(s)\n" ++
      if totals.fixable > 0 ∧ !fix then fixHint files totals.fixable else ""

variable {m : Type → Type} [Monad m] [FileAccess m]

/-- The source of a checked file as it stands, if snippets are asked for. -/
def sourceFor (pretty : Bool) (path : String) : m (Option String) := do
  if pretty then return (← FileAccess.read path).toOption else return none

def reportFiles (pretty : Bool) (reports : List FileReport) : m String := do
  return String.join (← reports.mapM fun r => do return reportFile (← sourceFor pretty r.path) r)

def report (options : LintOptions) (files : List String) (reports : List FileReport) : m String := do
  match options.format with
  | .json => return (Report.json reports).print 0 ++ "\n"
  | .text =>
    return (← reportFiles options.pretty reports) ++
      reportTotals files options.fix (LintTotals.of reports)

def lintAndReport (options : LintOptions) (files : List String) : m CommandResult := do
  let reports ← lintFiles files options.fix
  let text ← report options files reports
  return ⟨if (LintTotals.of reports).errors > 0 then 1 else 0, ⟨text, ""⟩⟩

/-- Checks all transaction files of the protocol, or the files given. -/
def runLint (environment : Option String) (options : LintOptions) : m CommandResult := do
  if options.all then
    let protocol : Protocol := { Protocol.default with directory := options.protocolDirectory }
    match ← Discovery.transactionFiles protocol with
    | .error e => return ⟨1, .errLine ("Error: " ++ e.message)⟩
    | .ok [] => return ⟨1, .line "No transaction files found"⟩
    | .ok files => lintAndReport options files
  else if options.files.isEmpty then return ⟨1, ⟨"", lintHelp environment⟩⟩
  else lintAndReport options options.files

end Parley.Command
