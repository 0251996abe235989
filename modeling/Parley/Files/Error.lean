/-
Why an operation on files fails, with the wording of the operating system.
-/

namespace Parley

inductive FileError
  | notFound
  | alreadyExists
  | notADirectory
  | isADirectory
  | tooManyLinks
  /-- The bytes of a file are not UTF-8. -/
  | notText
  /-- Any other failure, in the words of the system. -/
  | other (text : String)
deriving DecidableEq, Repr

/-- A failure in words, with the number the system gives it. -/
def FileError.message : FileError → String
  | notFound => "No such file or directory (os error 2)"
  | alreadyExists => "File exists (os error 17)"
  | notADirectory => "Not a directory (os error 20)"
  | isADirectory => "Is a directory (os error 21)"
  | tooManyLinks => "Too many levels of symbolic links (os error 40)"
  | notText => "stream did not contain valid UTF-8"
  | other text => text

end Parley
