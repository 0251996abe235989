/-
Running a command line.
-/
import Parley.Command.Generate
import Parley.Command.Lint

namespace Parley.Command

variable {m : Type → Type} [Monad m] [FileAccess m]

/-- Runs a command; `environment` is the protocol directory that the environment names. -/
def run (environment : Option String) : Command → m CommandResult
  | lint options => runLint environment options
  | generate options => runGenerate options
  | regenerate options => runRegenerate options

def runArguments (environment : Option String) (args : List String) :
    m (Except UsageError CommandResult) := do
  match read environment args with
  | .error e => return .error e
  | .ok command => return .ok (← command.run environment)

end Parley.Command
