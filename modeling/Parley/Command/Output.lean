/-
What a command writes, to its output and to its error output.
-/

namespace Parley

structure Output where
  out : String
  err : String
deriving DecidableEq, Repr

namespace Output

def empty : Output := ⟨"", ""⟩

def line (text : String) : Output := ⟨text ++ "\n", ""⟩

def errLine (text : String) : Output := ⟨"", text ++ "\n"⟩

def append (a b : Output) : Output := ⟨a.out ++ b.out, a.err ++ b.err⟩

instance : Append Output := ⟨append⟩

def concat (outputs : List Output) : Output := outputs.foldr append empty

end Output

/-- How a command ended: its exit code and what it wrote. -/
structure CommandResult where
  code : Nat
  output : Output
deriving DecidableEq, Repr

end Parley
