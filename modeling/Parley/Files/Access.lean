/-
What the commands do with files, as operations of a monad: the commands are written once, and run
on the files of a system or on a tree of files held as a value (`Tree`). Every operation that can
fail gives its failure as a value.
-/
import Parley.Files.Error

namespace Parley

inductive FileKind
  | file
  | directory
deriving DecidableEq, Repr

/-- All that lies in a directory. Links are not followed; a link holds the kind of what it leads to,
if it leads to anything. -/
inductive Survey
  | file
  | link (target : Option FileKind)
  | directory (entries : List (String × Survey))

class FileAccess (m : Type → Type) where
  read : String → m (Except FileError String)
  /-- Gives a file a new text, all at once: a failure leaves it as it was. A link is followed. -/
  replace : String → String → m (Except FileError Unit)
  /-- Creates a directory and those above it, unless they are there. -/
  createDirectories : String → m (Except FileError Unit)
  /-- What a path leads to, through links. -/
  kind : String → m (Option FileKind)
  list : String → m (Except FileError (List String))
  /-- All that lies in a directory. -/
  survey : String → m (Except FileError (List (String × Survey)))

end Parley
