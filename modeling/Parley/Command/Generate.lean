/-
The commands that make artifacts: of one transaction, where the first failure ends the command, and
of all transactions of a protocol, where every failure is reported and counted.
-/
import Parley.Artifact.Generate
import Parley.Command.Arguments
import Parley.Command.Output
import Parley.Files.Discovery

namespace Parley.Command

def wanted (markdown python : Bool) : List Artifact :=
  (if markdown then [.markdown] else []) ++ if python then [.python] else []

variable {m : Type → Type} [Monad m] [FileAccess m]

/-- Makes artifacts of a directory until one fails. -/
def generateAll (options : GenerateOptions) : List Artifact → m CommandResult
  | [] => return ⟨0, .empty⟩
  | artifact :: rest => do
    let output := artifact.outputPath options.directory options.output .default
    match ← artifact.generate options.directory output with
    | .error e => return ⟨1, .errLine ("Error: " ++ e.message)⟩
    | .ok () =>
      let after ← generateAll options rest
      return { after with output := .line ("Generated: " ++ output) ++ after.output }

def runGenerate (options : GenerateOptions) : m CommandResult := do
  if (← FileAccess.kind options.directory).isNone then
    return ⟨1, .errLine ("Error: Directory not found: " ++ options.directory)⟩
  match wanted options.markdown options.python with
  | [] => return ⟨1, .line "Specify --markdown and/or --python to generate output"⟩
  | artifacts => generateAll options artifacts

/-- Makes one artifact in its default place: whether that succeeded, and what is written. -/
def refresh (options : RegenerateOptions) (directory : String) (artifact : Artifact) :
    m (Bool × Output) := do
  let output := artifact.outputPath directory none options.protocol
  match ← artifact.generate directory output with
  | .ok () => return (true, if options.verbose then .line ("  Generated: " ++ output) else .empty)
  | .error e =>
    return (false, .errLine ("  Error generating " ++ artifact.label ++ ": " ++ e.message))

/-- Makes the wanted artifacts of a directory: whether all succeeded, and what is written. -/
def regenerateDirectory (options : RegenerateOptions) (directory : String) : m (Bool × Output) := do
  let results ← (wanted (!options.pythonOnly) (!options.markdownOnly)).mapM
    (refresh options directory)
  return (results.all Prod.fst,
    .line ("Processing: " ++ Artifact.directoryName directory) ++
      .concat (results.map Prod.snd) ++ .line "")

/-- Makes the wanted artifacts of all directories and counts successes and failures. -/
def regenerateAll (options : RegenerateOptions) (directories : List String) : m CommandResult := do
  let results ← directories.mapM (regenerateDirectory options)
  let failed := (results.filter fun r => !r.1).length
  return ⟨if failed > 0 then 1 else 0,
    .line ("Found " ++ toString directories.length ++ " transaction(s)") ++ .line "" ++
      .concat (results.map Prod.snd) ++
      .line ("Done: " ++ toString (results.length - failed) ++ " succeeded, " ++ toString failed ++
        " failed")⟩

/-- Makes artifacts of the transactions of a protocol, or of the one that is named. -/
def runRegenerate (options : RegenerateOptions) : m CommandResult := do
  match ← Discovery.transactionDirectories options.protocol with
  | .error e => return ⟨1, .errLine ("Error: " ++ e.message)⟩
  | .ok [] =>
    return ⟨1, .errLine ("No transaction directories found in " ++ options.protocol.transactions)⟩
  | .ok directories =>
    match options.transaction with
    | none => regenerateAll options directories
    | some name =>
      match Discovery.named name directories with
      | [] => return ⟨1, .errLine ("Transaction not found: " ++ name)⟩
      | selected => regenerateAll options selected

end Parley.Command
