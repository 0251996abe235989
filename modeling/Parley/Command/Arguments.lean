/-
The three commands and their arguments.
-/
import Parley.Command.Usage
import Parley.Files.Protocol

namespace Parley

inductive ReportFormat
  | text
  | json
deriving DecidableEq, Repr

structure LintOptions where
  files : List String
  all : Bool
  fix : Bool
  protocolDirectory : String
  format : ReportFormat
  pretty : Bool
deriving DecidableEq, Repr

structure GenerateOptions where
  directory : String
  markdown : Bool
  python : Bool
  output : Option String
deriving DecidableEq, Repr

/-- Which artifacts to make from the transactions of a protocol. -/
structure RegenerateOptions where
  verbose : Bool
  transaction : Option String
  protocol : Protocol
  markdownOnly : Bool
  pythonOnly : Bool
deriving DecidableEq, Repr

inductive Command
  | lint (options : LintOptions)
  | generate (options : GenerateOptions)
  | regenerate (options : RegenerateOptions)
deriving DecidableEq, Repr

namespace Command

open Usage

def isPath (text : String) : Bool := text != ""

def flag (name : String) : Switch := ⟨name, none, .flag⟩

def pathOption (name : String) : Switch := ⟨name, none, .value isPath⟩

def formats : List (String × ReportFormat) := [("text", .text), ("json", .json)]

def lintSpec : Spec where
  options :=
    [flag "all", flag "fix", pathOption "protocol-dir",
      ⟨"format", none, .value fun v => (formats.lookup v).isSome⟩, flag "pretty", helpOption]
  operands := none
  acceptsOperand := isPath

def generateSpec : Spec where
  options := [flag "markdown", flag "python", pathOption "output-dir", helpOption]
  operands := some 1
  acceptsOperand := isPath

def regenerateSpec : Spec where
  options :=
    [⟨"verbose", some 'v', .flag⟩, ⟨"transaction", some 't', .value fun _ => true⟩,
      pathOption "protocol-dir", pathOption "python-output", flag "markdown-only",
      flag "python-only", helpOption]
  operands := some 0
  acceptsOperand := isPath

/-- The directory of the protocol: from its option, else from the environment, else the default. -/
def protocolDirectory (environment : Option String) (s : Seen) : Except UsageError String :=
  match s.value? "protocol-dir", environment with
  | some directory, _ => .ok directory
  | none, some directory => if isPath directory then .ok directory else .error .invalidValue
  | none, none => .ok Protocol.defaultDirectory

def readLint (environment : Option String) (args : List String) : Except UsageError Command := do
  let s ← Usage.read lintSpec args
  let directory ← protocolDirectory environment s
  return .lint
    { files := s.operands
      all := s.has "all"
      fix := s.has "fix"
      protocolDirectory := directory
      format := ((s.value? "format").bind fun v => formats.lookup v).getD .text
      pretty := s.has "pretty" }

/-- Reads the arguments of `generate`, which needs a directory. -/
def readGenerate (args : List String) : Except UsageError Command := do
  let s ← Usage.read generateSpec args
  match s.operands.head? with
  | none => .error .missingArgument
  | some directory =>
    return .generate
      { directory
        markdown := s.has "markdown"
        python := s.has "python"
        output := s.value? "output-dir" }

/-- Reads the arguments of `regenerate`, which may leave out one kind of artifact only. -/
def readRegenerate (environment : Option String) (args : List String) :
    Except UsageError Command := do
  let s ← Usage.read regenerateSpec args
  let directory ← protocolDirectory environment s
  if s.has "markdown-only" && s.has "python-only" then .error .conflict
  else
    return .regenerate
      { verbose := s.has "verbose"
        transaction := s.value? "transaction"
        protocol := ⟨directory, (s.value? "python-output").getD Protocol.defaultStubs⟩
        markdownOnly := s.has "markdown-only"
        pythonOnly := s.has "python-only" }

def names : List String := ["lint", "generate", "regenerate"]

/-- What `help` shows: a command, or itself, but nothing below them. -/
def readHelp : List String → UsageError
  | [] => .help
  | name :: rest =>
    if (names ++ ["help"]).contains name ∧ rest.isEmpty then .help else .invalidSubcommand

def topSpec : Spec where
  options := [helpOption, versionOption]
  operands := some 0
  acceptsOperand := isPath

/-- Reads arguments up to the name of a command, and then those of the command; `plain` says that a
`--` came before. -/
def readFrom (environment : Option String) (plain : Bool) : List String → Except UsageError Command
  | [] => .error .noArguments
  | a :: rest =>
    if plain then
      .error (if (names ++ ["help"]).contains a then .unknownArgument else .invalidSubcommand)
    else if a = "lint" then readLint environment rest
    else if a = "generate" then readGenerate rest
    else if a = "regenerate" then readRegenerate environment rest
    else if a = "help" then .error (readHelp rest)
    else if a = "--" then readFrom environment true rest
    else match a.toList with
      | '-' :: _ :: _ => do
        let _ ← Seen.nothing.argument topSpec a
        readFrom environment plain rest
      | _ => .error .invalidSubcommand

/-- Reads a command from its arguments, given the protocol directory that the environment names. -/
def read (environment : Option String) (args : List String) : Except UsageError Command :=
  readFrom environment false args

end Command

end Parley
