/-
Finding transactions in a protocol tree. A transaction directory lies right below the directory of
transactions and holds a transaction file; transaction files are also found at any depth, through
real directories only. The directory of drawings is left out everywhere.
-/
import Parley.Files.Access
import Parley.Files.Protocol

namespace Parley

structure DiscoveryError where
  path : String
  cause : FileError
deriving DecidableEq, Repr

def DiscoveryError.message (e : DiscoveryError) : String :=
  "failed to read directory " ++ e.path ++ ": " ++ e.cause.message

namespace Discovery

mutual

/-- The transaction files in what lies at a name of a directory. -/
def filesAt (directory name : String) : Survey → List String
  | .file => if name = transactionFile then [Path.join directory name] else []
  | .link target =>
    if name = transactionFile ∧ target = some .file then [Path.join directory name] else []
  | .directory entries =>
    if name = drawingsDirectory then [] else filesBelow (Path.join directory name) entries

/-- The transaction files in the entries of a directory. -/
def filesBelow (directory : String) : List (String × Survey) → List String
  | [] => []
  | (name, entry) :: rest => filesAt directory name entry ++ filesBelow directory rest

end

variable {m : Type → Type} [Monad m] [FileAccess m]

def isFile (path : String) : m Bool := do return (← FileAccess.kind path) == some .file

def isDirectory (path : String) : m Bool := do return (← FileAccess.kind path) == some .directory

def isTransaction (directory name : String) : m Bool := do
  if name = drawingsDirectory then return false
  let path := Path.join directory name
  if ← isDirectory path then isFile (Path.join path transactionFile) else return false

/-- The transaction directories of a protocol in order; none if it has no directory of
transactions. -/
def transactionDirectories (protocol : Protocol) : m (Except DiscoveryError (List String)) := do
  let directory := protocol.transactions
  if ← isDirectory directory then
    match ← FileAccess.list directory with
    | .error e => return .error ⟨directory, e⟩
    | .ok names =>
      let found ← names.filterM (isTransaction directory)
      return .ok (Path.sort (found.map (Path.join directory)))
  else return .ok []

def named (name : String) (directories : List String) : List String :=
  directories.filter fun path => Path.fileName? path == some name

/-- All transaction files of a protocol in order; none if it has no directory of transactions. -/
def transactionFiles (protocol : Protocol) : m (Except DiscoveryError (List String)) := do
  let directory := protocol.transactions
  if ← isDirectory directory then
    match ← FileAccess.survey directory with
    | .error e => return .error ⟨directory, e⟩
    | .ok entries => return .ok (Path.sort (filesBelow directory entries))
  else return .ok []

end Discovery

end Parley
