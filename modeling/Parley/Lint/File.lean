/-
Checking files. A file that cannot be read has one diagnostic. Fixes are applied if asked for, all
or none: the file is then checked again, so that the report describes it as it stands. If it cannot
be written, it stays as it was, with one more diagnostic.
-/
import Parley.Files.Access
import Parley.Files.Path
import Parley.Lint.Check

namespace Parley

structure FileReport where
  path : String
  /-- The diagnostics of the file as it stands. -/
  diagnostics : List Diagnostic
  /-- The fixes found at first. -/
  fixable : Nat
  /-- The fixes applied. -/
  fixed : Nat
deriving DecidableEq, Repr

structure LintTotals where
  errors : Nat
  warnings : Nat
  fixable : Nat
deriving DecidableEq, Repr

def LintTotals.of (reports : List FileReport) : LintTotals where
  errors := reports.foldl (fun n r => n + errorCount r.diagnostics) 0
  warnings := reports.foldl (fun n r => n + warningCount r.diagnostics) 0
  fixable := reports.foldl (fun n r => n + r.fixable) 0

variable {m : Type → Type} [Monad m] [FileAccess m]

def lintFile (path : String) (fix : Bool) : m FileReport := do
  match ← FileAccess.read path with
  | .error e => return ⟨path, [.ofFile (.unreadable e)], 0, 0⟩
  | .ok source =>
    let diagnostics := lint source
    let fixes := fixesOf diagnostics
    if !fix || fixes.isEmpty then return ⟨path, diagnostics, fixes.length, 0⟩
    match Edit.applyAll source fixes with
    | .error _ => return ⟨path, diagnostics, fixes.length, 0⟩
    | .ok fixed =>
      match ← FileAccess.replace path fixed with
      | .error e => return ⟨path, diagnostics ++ [.ofFile (.unwritable e)], fixes.length, 0⟩
      | .ok () => return ⟨path, lint fixed, fixes.length, fixes.length⟩

def lintFiles (paths : List String) (fix : Bool) : m (List FileReport) :=
  (Path.sort paths).mapM (lintFile · fix)

end Parley
