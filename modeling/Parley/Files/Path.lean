/-
Paths as texts. Slashes separate components; repeated slashes and a `.` that does not lead say
nothing. A path may be taken apart into components, cut before its last component, or extended;
paths are ordered by their components.
-/

namespace Parley.Path

inductive Component
  | root
  | current
  | parent
  | name (text : String)
deriving DecidableEq, Repr

def splitAtSlashes : List Char → List (List Char)
  | [] => [[]]
  | c :: cs =>
    if c = '/' then [] :: splitAtSlashes cs
    else match splitAtSlashes cs with
      | [] => [[c]]
      | part :: parts => (c :: part) :: parts

/-- The component that a stretch between slashes stands for, if it says anything. -/
def component? (part : List Char) : Option Component :=
  if part = [] ∨ part = ['.'] then none
  else if part = ['.', '.'] then some .parent
  else some (.name (String.ofList part))

def isAbsolute (path : String) : Bool := path.toList.head? == some '/'

/-- The components of a path; a `.` at the start is one. -/
def components (path : String) : List Component :=
  let parts := splitAtSlashes path.toList
  let start :=
    if isAbsolute path then [.root]
    else if parts.head? = some ['.'] then [.current] else []
  start ++ parts.filterMap component?

/-- The name at the end of a path, unless the path ends in the root, in `.` or in `..`. -/
def fileName? (path : String) : Option String :=
  match (components path).getLast? with
  | some (.name text) => some text
  | _ => none

/-- A reversed path without the slashes and `.` components at its end; a lone slash stays. -/
def trimEnd : List Char → List Char
  | ['/'] => ['/']
  | '/' :: rest => trimEnd rest
  | ['.', '/'] => ['/']
  | '.' :: '/' :: rest => trimEnd rest
  | cs => cs

/-- The path before the last component, cut from the text; the empty path and the root have none. -/
def parent? (path : String) : Option String :=
  match trimEnd path.toList.reverse with
  | [] | ['/'] => none
  | cs => some (String.ofList (trimEnd (cs.dropWhile (· ≠ '/'))).reverse)

/-- A path below another: an absolute path stands for itself. -/
def join (base path : String) : String :=
  if isAbsolute path then path
  else match base.toList.getLast? with
    | none => path
    | some c => if c = '/' then base ++ path else base ++ "/" ++ path

def Component.rank : Component → Nat
  | root => 0
  | current => 1
  | parent => 2
  | name _ => 3

/-- Whether a component comes before another: by kind, and names by their characters. -/
def Component.lt (a b : Component) : Bool :=
  match a, b with
  | name s, name t => decide (s < t)
  | _, _ => decide (a.rank < b.rank)

def componentsLe : List Component → List Component → Bool
  | [], _ => true
  | _ :: _, [] => false
  | a :: as, b :: bs => a.lt b || (a == b && componentsLe as bs)

def le (a b : String) : Bool := componentsLe (components a) (components b)

/-- Paths in order; paths with the same components stay as they are. -/
def sort (paths : List String) : List String := paths.mergeSort le

end Parley.Path
