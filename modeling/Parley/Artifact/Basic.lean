/-
The artifacts made from a transaction, with the names and places of their files.
-/
import Parley.Artifact.Markdown
import Parley.Artifact.Stub
import Parley.Files.Protocol

namespace Parley

inductive Artifact
  | markdown
  | python
deriving DecidableEq, Repr

namespace Artifact

def render : Artifact → Transaction → String
  | markdown => Markdown.render
  | python => Stub.render

/-- The name of a directory; empty if its path ends in no name. -/
def directoryName (directory : String) : String := (Path.fileName? directory).getD ""

/-- What follows the first underscore of a name, or the whole name if it has none. -/
def stem (name : String) : String :=
  match name.toList.dropWhile (· ≠ '_') with
  | [] => name
  | _ :: rest => String.ofList rest

def fileName (artifact : Artifact) (directory : String) : String :=
  match artifact with
  | markdown => directoryName directory ++ ".md"
  | python => stem (directoryName directory) ++ "_generated.py"

/-- Where the artifact of a transaction directory goes by default: Markdown beside the directory,
Python to the stubs of the protocol. -/
def defaultDirectory (artifact : Artifact) (directory : String) (protocol : Protocol) : String :=
  match artifact with
  | markdown => (Path.parent? directory).getD "."
  | python => protocol.stubs

/-- The file of an artifact, in a given directory or in the default one. -/
def outputPath (artifact : Artifact) (directory : String) (output : Option String)
    (protocol : Protocol) : String :=
  Path.join (output.getD (artifact.defaultDirectory directory protocol)) (artifact.fileName directory)

def label : Artifact → String
  | markdown => "markdown"
  | python => "Python"

end Artifact

end Parley
