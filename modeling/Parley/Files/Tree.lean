/-
A tree of files, directories and links as a value. A path is followed component by component from
the root of the tree, which is also the working directory; a link in the way is replaced by its
target, at most forty times. The operations give the failures that a system gives.
-/
import Parley.Files.Access
import Parley.Files.Path

namespace Parley

/-- What a file holds: a text, or bytes that are no UTF-8. -/
inductive Content
  | text (value : String)
  | binary (bytes : List UInt8)
deriving DecidableEq, Repr

/-- A file with its mode if that is known, a directory, or a link. -/
inductive Node
  | file (content : Content) (mode : Option Nat)
  | link (target : String)
  | directory (entries : List (String × Node)) (mode : Option Nat)

structure Tree where
  entries : List (String × Node)

namespace Tree

def root (t : Tree) : Node := .directory t.entries none

/-- What lies at the end of a chain of names. -/
def findFrom : Node → List String → Option Node
  | n, [] => some n
  | .directory entries _, name :: rest => (entries.lookup name).bind (findFrom · rest)
  | _, _ :: _ => none

/-- What lies at the end of a chain of names from the root; links are not followed. -/
def find? (t : Tree) (names : List String) : Option Node := findFrom t.root names

/-- Puts a node under a name in a directory, or takes the name out. -/
def putEntry (name : String) (node : Option Node) : List (String × Node) → List (String × Node)
  | [] => node.elim [] fun n => [(name, n)]
  | (key, old) :: rest =>
    if key = name then node.elim rest fun n => (name, n) :: rest
    else (key, old) :: putEntry name node rest

/-- Puts a node at the end of a chain of names, or takes it out; the directories on the way have to
be there. -/
def putAt (node : Option Node) : List String → List (String × Node) → List (String × Node)
  | [], entries => entries
  | [name], entries => putEntry name node entries
  | name :: rest, entries =>
    match entries.lookup name with
    | some (.directory inner mode) =>
      putEntry name (some (.directory (putAt node rest inner) mode)) entries
    | _ => entries

/-- The tree with a node put at the end of a chain of names, or taken out. -/
def put (t : Tree) (names : List String) (node : Option Node) : Tree := ⟨putAt node names t.entries⟩

/-! ## Paths -/

/-- The steps that a path asks for: its names, `.` and `..`. -/
def steps (path : String) : List String :=
  ((Path.splitAtSlashes path.toList).filter (· ≠ [])).map String.ofList

/-- Whether a path ends in a slash and so has to lead to a directory. -/
def endsInSlash (path : String) : Bool := path.toList.getLast? == some '/'

/-- The steps of a path, with a step on the spot for a slash at its end. -/
def allSteps (path : String) : List String :=
  steps path ++ if endsInSlash path then ["."] else []

/-- How many links are followed on the way to a file. -/
def maxLinks : Nat := 40

/-- The names that steps lead to from the directory `here`. The last step may lead to a link, which
is followed if `follow` says so; it may lead to nothing if `create` says so. -/
def walk (t : Tree) (follow create : Bool) (links : Nat) (here : List String) :
    List String → Except FileError (List String)
  | [] => .ok here
  | step :: rest =>
    match t.find? here with
    | some (.directory entries _) =>
      if step = "." then walk t follow create links here rest
      else if step = ".." then walk t follow create links here.dropLast rest
      else match entries.lookup step with
        | none => if rest = [] ∧ create then .ok (here ++ [step]) else .error .notFound
        | some (.link target) =>
          if rest = [] ∧ !follow then .ok (here ++ [step])
          else match links with
            | 0 => .error .tooManyLinks
            | links + 1 =>
              walk t follow create links (if Path.isAbsolute target then [] else here)
                (allSteps target ++ rest)
        | some _ => walk t follow create links (here ++ [step]) rest
    | _ => .error .notADirectory
termination_by todo => (links, todo.length)

def resolveWith (t : Tree) (follow create : Bool) (path : String) : Except FileError (List String) :=
  if path = "" then .error .notFound else t.walk follow create maxLinks [] (allSteps path)

/-- The names of what a path leads to through links. -/
def resolve (t : Tree) (path : String) : Except FileError (List String) :=
  t.resolveWith true false path

def get (t : Tree) (path : String) : Except FileError Node := do
  match t.find? (← t.resolve path) with
  | some n => .ok n
  | none => .error .notFound

def kindOf : Node → Option FileKind
  | .file .. => some .file
  | .directory .. => some .directory
  | .link _ => none

def kind (t : Tree) (path : String) : Option FileKind := (t.get path).toOption.bind kindOf

/-! ## Operations -/

def read (t : Tree) (path : String) : Except FileError String := do
  match ← t.get path with
  | .file (.text value) _ => .ok value
  | .file (.binary _) _ => .error .notText
  | .directory .. => .error .isADirectory
  | .link _ => .error .notFound

def list (t : Tree) (path : String) : Except FileError (List String) := do
  match ← t.get path with
  | .directory entries _ => .ok (entries.map Prod.fst)
  | _ => .error .notADirectory

/-- Creates a directory at steps whose last one leads to nothing yet. -/
def makeDirectory (t : Tree) (todo : List String) : Except FileError Tree :=
  match todo.getLast? with
  | none => .error .alreadyExists
  | some name => do
    let above ← t.walk true false maxLinks [] todo.dropLast
    match t.find? above with
    | some (.directory entries _) =>
      if name = "." ∨ name = ".." ∨ (entries.lookup name).isSome then .error .alreadyExists
      else .ok (t.put (above ++ [name]) (some (.directory [] none)))
    | _ => .error .notADirectory

def isDirectory (t : Tree) (todo : List String) : Bool :=
  match t.walk true false maxLinks [] todo with
  | .ok names => ((t.find? names).bind kindOf) == some .directory
  | .error _ => false

/-- Creates a directory unless it is there. -/
def ensureDirectory (t : Tree) (todo : List String) : Except FileError Tree :=
  match t.makeDirectory todo with
  | .ok t => .ok t
  | .error e => if t.isDirectory todo then .ok t else .error e

/-- Creates the directory at steps given from the last to the first, and those above it where they
are missing. -/
def createAbove (t : Tree) : List String → Except FileError Tree
  | [] => .ok t
  | last :: above =>
    match t.makeDirectory (last :: above).reverse with
    | .error .notFound => do (← createAbove t above).ensureDirectory (last :: above).reverse
    | _ => t.ensureDirectory (last :: above).reverse

/-- Creates a directory and those above it, unless they are there. -/
def createDirectories (t : Tree) (path : String) : Except FileError Tree :=
  t.createAbove (steps path).reverse

/-- Puts a new file where a path leads to nothing. A link there that leads to nothing is not
followed: the file takes its place. -/
def createFile (t : Tree) (path text : String) : Except FileError Tree := do
  let directory := match Path.parent? path with
    | none | some "" => "."
    | some parent => parent
  match ← t.get directory with
  | .directory .. =>
    match (steps path).getLast? with
    | none => .error .notFound
    | some name =>
      if endsInSlash path then .error .notADirectory
      else if name = "." ∨ name = ".." then .error .notFound
      else
        let above ← t.walk true false maxLinks [] (steps path).dropLast
        .ok (t.put (above ++ [name]) (some (.file (.text text) none)))
  | _ => .error .notADirectory

/-- Gives a file a new text all at once, or creates it. A link is followed, and a file that was there
keeps its mode. -/
def replace (t : Tree) (path text : String) : Except FileError Tree :=
  match t.resolve path with
  | .error .notFound => t.createFile path text
  | .error e => .error e
  | .ok names =>
    match t.find? names with
    | some (.file _ mode) => .ok (t.put names (some (.file (.text text) mode)))
    | _ => .error .isADirectory

/-- Writes a file in place, or creates it where the path leads. -/
def write (t : Tree) (path text : String) : Except FileError Tree := do
  let names ← t.resolveWith true true path
  match t.find? names with
  | some (.directory ..) => .error .isADirectory
  | some (.file _ mode) => .ok (t.put names (some (.file (.text text) mode)))
  | _ => .ok (t.put names (some (.file (.text text) none)))

def remove (t : Tree) (path : String) : Except FileError Tree := do
  let names ← t.resolveWith false false path
  match t.find? names with
  | some (.directory ..) => .error .isADirectory
  | _ => .ok (t.put names none)

mutual

/-- The node at a path as a survey shows it. -/
def surveyNode (t : Tree) (path : String) : Node → Survey
  | .file .. => .file
  | .link _ => .link (t.kind path)
  | .directory entries _ => .directory (surveyEntries t path entries)

/-- The entries of the directory at a path. -/
def surveyEntries (t : Tree) (path : String) : List (String × Node) → List (String × Survey)
  | [] => []
  | (name, node) :: rest =>
    (name, surveyNode t (Path.join path name) node) :: surveyEntries t path rest

end

def survey (t : Tree) (path : String) : Except FileError (List (String × Survey)) := do
  match ← t.get path with
  | .directory entries _ => .ok (t.surveyEntries path entries)
  | _ => .error .notADirectory

/-! ## A tree with everything on the way -/

/-- Puts a node at the end of a chain of names and creates the directories on the way. -/
def plantAt (node : Node) : List String → List (String × Node) → List (String × Node)
  | [], entries => entries
  | [name], entries => putEntry name (some node) entries
  | name :: rest, entries =>
    match entries.lookup name with
    | some (.directory inner mode) =>
      putEntry name (some (.directory (plantAt node rest inner) mode)) entries
    | _ => putEntry name (some (.directory (plantAt node rest []) none)) entries

def plant (t : Tree) (path : String) (node : Node) : Tree :=
  ⟨plantAt node ((steps path).filter (· ≠ ".")) t.entries⟩

mutual

def listNode (path : String) : Node → List (String × Node)
  | .directory entries mode => (path, .directory entries mode) :: listEntries (path ++ "/") entries
  | n => [(path, n)]

/-- The entries of a directory and all below them; `base` stands before their names. -/
def listEntries (base : String) : List (String × Node) → List (String × Node)
  | [] => []
  | (name, node) :: rest => listNode (base ++ name) node ++ listEntries base rest

end

def everything (t : Tree) : List (String × Node) := listEntries "" t.entries

/-- Runs an operation that gives a new tree; a failure leaves the tree as it is. -/
def change (f : Tree → Except FileError Tree) : StateM Tree (Except FileError Unit) := fun t =>
  match f t with
  | .ok t => (.ok (), t)
  | .error e => (.error e, t)

instance : FileAccess (StateM Tree) where
  read path := fun t => (t.read path, t)
  replace path text := change (·.replace path text)
  createDirectories path := change (·.createDirectories path)
  kind path := fun t => (t.kind path, t)
  list path := fun t => (t.list path, t)
  survey path := fun t => (t.survey path, t)

end Tree

end Parley
