/-
The command line. It runs the commands on the files of the system and writes what they give.
-/
import Parley.Command.Run

namespace Parley.Main

/-- The number that the system gives a failure, as far as it is told apart. -/
def errorNumber : IO.Error → Option UInt32
  | .noFileOrDirectory _ code _ => some code
  | .alreadyExists _ code _ => some code
  | .inappropriateType _ code _ => some code
  | .invalidArgument _ code _ => some code
  | .otherError code _ => some code
  | .unsatisfiedConstraints code _ => some code
  | _ => none

def fileError (e : IO.Error) : FileError :=
  match errorNumber e with
  | some 2 => .notFound
  | some 17 => .alreadyExists
  | some 20 => .notADirectory
  | some 21 => .isADirectory
  | some 40 => .tooManyLinks
  | _ => .other (toString e)

def attempt {α : Type} (action : IO α) : IO (Except FileError α) := do
  try return .ok (← action) catch e => return .error (fileError e)

def readText (path : String) : IO (Except FileError String) := do
  match ← attempt (IO.FS.readBinFile ⟨path⟩) with
  | .error e => return .error e
  | .ok bytes => return (String.fromUTF8? bytes).elim (.error .notText) .ok

/-- The file that a path leads to through links, or the path itself if it leads to nothing. -/
def target (path : String) : IO (Except FileError String) := do
  match ← attempt (IO.FS.realPath ⟨path⟩) with
  | .ok real => return .ok real.toString
  | .error .notFound => return .ok path
  | .error e => return .error e

/-- Writes a text beside a file and moves it over the file. -/
def replaceText (path text : String) : IO (Except FileError Unit) := do
  match ← target path with
  | .error e => return .error e
  | .ok goal =>
    let fresh := goal ++ ".omerta"
    attempt do
      IO.FS.writeFile ⟨fresh⟩ text
      try IO.FS.rename ⟨fresh⟩ ⟨goal⟩
      catch e =>
        IO.FS.removeFile ⟨fresh⟩
        throw e

def kindOf : IO.FS.FileType → Option FileKind
  | .file => some .file
  | .dir => some .directory
  | _ => none

def kindAt (path : String) : IO (Option FileKind) := do
  if path = "" then return none
  let place := (← IO.currentDir) / path
  try return kindOf (← place.metadata).type catch _ => return none

def namesIn (path : String) : IO (List String) := do
  return ((← ((← IO.currentDir) / path).readDir).map (·.fileName)).toList

partial def surveyBelow (path : String) : IO (List (String × Survey)) := do
  (← namesIn path).mapM fun name => do
    let inner := Path.join path name
    match (← ((← IO.currentDir) / inner).symlinkMetadata).type with
    | .dir => return (name, .directory (← surveyBelow inner))
    | .symlink => return (name, .link (← kindAt inner))
    | _ => return (name, .file)

instance : FileAccess IO where
  read := readText
  replace := replaceText
  createDirectories path := attempt (IO.FS.createDirAll ⟨path⟩)
  kind := kindAt
  list path := attempt (namesIn path)
  survey path := attempt (surveyBelow path)

def explain : UsageError → String
  | .help => "Usage: omerta <lint|generate|regenerate> [OPTIONS]"
  | .version => "omerta 0.1.0"
  | .unknownArgument => "error: unexpected argument"
  | .invalidSubcommand => "error: unrecognized subcommand"
  | .invalidValue => "error: invalid value"
  | .missingArgument => "error: the following required arguments were not provided: <TX_DIR>"
  | .conflict => "error: conflicting arguments"
  | .tooManyValues => "error: unexpected value"
  | .noArguments => "Usage: omerta <lint|generate|regenerate> [OPTIONS]"

/-- Runs the command line; the exit code tells how it went. -/
def run (args : List String) : IO UInt32 := do
  let environment ← IO.getEnv "OMERTA_PROTOCOL_DIR"
  match ← Command.runArguments environment args with
  | .error e =>
    if e.exitCode = 0 then IO.println (explain e) else IO.eprintln (explain e)
    return UInt32.ofNat e.exitCode
  | .ok result =>
    IO.print result.output.out
    IO.eprint result.output.err
    return UInt32.ofNat result.code

end Parley.Main

def main (args : List String) : IO UInt32 := Parley.Main.run args
