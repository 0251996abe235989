/-
Making an artifact from a transaction directory: the first transaction of its file is read, checked
and rendered, and the result written all at once. A transaction with errors is refused; warnings do
not matter.
-/
import Parley.Analysis.Validation
import Parley.Artifact.Basic
import Parley.Files.Access
import Parley.Parser.Parse

namespace Parley

/-- Why a file gives no schema. -/
inductive SourceError
  | unreadable (path : String) (cause : FileError)
  | malformed (e : SyntaxError)
deriving DecidableEq, Repr

def SourceError.message : SourceError → String
  | unreadable path cause => "failed to read " ++ path ++ ": " ++ cause.message
  | malformed e => e.message

/-- Why an artifact is not made. -/
inductive GenerateError
  | source (e : SourceError)
  /-- The transaction has errors; the first of them is given. -/
  | invalid (directory : String) (errors : Nat) (first : Issue)
  | unwritable (path : String) (cause : FileError)
deriving DecidableEq, Repr

def GenerateError.message : GenerateError → String
  | source e => e.message
  | invalid directory errors first =>
    directory ++ " has " ++ toString errors ++ " validation error(s); first: " ++ first.display
  | unwritable path cause => "failed to write " ++ path ++ ": " ++ cause.message

variable {m : Type → Type} [Monad m] [FileAccess m]

def parseFile (path : String) : m (Except SourceError Schema) := do
  match ← FileAccess.read path with
  | .error e => return .error (.unreadable path e)
  | .ok source => return (parse source).mapError .malformed

def noTransaction : SourceError :=
  .malformed (.parse ⟨.nowhere, [.construct .transaction], none⟩)

def loadTransaction (directory : String) : m (Except SourceError Transaction) := do
  match ← parseFile (Path.join directory transactionFile) with
  | .error e => return .error e
  | .ok schema => return (schema.transactions.head?).elim (.error noTransaction) .ok

/-- The text of an artifact, unless the transaction has errors. -/
def Artifact.renderValid (artifact : Artifact) (directory : String) (tx : Transaction) :
    Except GenerateError String :=
  let errors := errorsOf tx.issues
  match errors with
  | [] => .ok (artifact.render tx)
  | first :: _ => .error (.invalid directory errors.length first)

def writeArtifact (output text : String) : m (Except FileError Unit) := do
  let above := (Path.parent? output).getD ""
  let ready ← if above = "" then pure (.ok ()) else FileAccess.createDirectories above
  match ready with
  | .error e => return .error e
  | .ok () => FileAccess.replace output text

def Artifact.generate (artifact : Artifact) (directory output : String) :
    m (Except GenerateError Unit) := do
  match ← loadTransaction directory with
  | .error e => return .error (.source e)
  | .ok tx =>
    match artifact.renderValid directory tx with
    | .error e => return .error e
    | .ok text =>
      match ← writeArtifact output text with
      | .error e => return .error (.unwritable output e)
      | .ok () => return .ok ()

end Parley
