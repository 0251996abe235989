/-
Reading the arguments of a command: options with one or two dashes and operands. An option takes its
value from the same argument or from the next one, and may be given once; short flags may share a
dash; after `--` every argument is an operand. Values are checked when the next option, an operand
of another kind or the end of the arguments shows that they are complete, and the first fault in
this order is reported.
-/

namespace Parley

/-- Why arguments are not run, or what is shown instead of running them. -/
inductive UsageError
  | unknownArgument
  | invalidSubcommand
  | invalidValue
  | missingArgument
  | conflict
  | tooManyValues
  | noArguments
  | help
  | version
deriving DecidableEq, Repr

/-- The exit code: asking for help or for the version is no fault. -/
def UsageError.exitCode : UsageError → Nat
  | help | version => 0
  | _ => 2

namespace Usage

inductive Effect
  | flag
  /-- Takes a value that passes a test. -/
  | value (accepts : String → Bool)
  | help
  | version

structure Switch where
  name : String
  short : Option Char
  effect : Effect

def helpOption : Switch := ⟨"help", some 'h', .help⟩

def versionOption : Switch := ⟨"version", some 'V', .version⟩

structure Spec where
  options : List Switch
  /-- How many operands there may be; any number if there is no limit. -/
  operands : Option Nat
  acceptsOperand : String → Bool

/-- Arguments whose end has not been seen. -/
inductive Pending
  | nothing
  | option (o : Switch) (value : Option String)
  | operands (values : List String)

structure Seen where
  /-- The options given, with their values; a flag has none. -/
  options : List (String × Option String)
  operands : List String
  pending : Pending

def Seen.nothing : Seen := ⟨[], [], .nothing⟩

/-- Adds an option, which must be new; its value must be acceptable. -/
def Seen.add (s : Seen) (o : Switch) (value : Option String) : Except UsageError Seen :=
  if (s.options.lookup o.name).isSome then .error .conflict
  else match o.effect, value with
    | .value accepts, some v =>
      if accepts v then .ok { s with options := s.options ++ [(o.name, value)] }
      else .error .invalidValue
    | _, _ => .ok { s with options := s.options ++ [(o.name, value)] }

/-- Settles what is pending. -/
def Seen.settle (spec : Spec) (s : Seen) : Except UsageError Seen :=
  match s.pending with
  | .nothing => .ok s
  | .option _ none => .error .invalidValue
  | .option o (some v) => { s with pending := .nothing }.add o (some v)
  | .operands values =>
    if values.all spec.acceptsOperand then
      .ok { s with operands := s.operands ++ values, pending := .nothing }
    else .error .invalidValue

def Seen.operand (spec : Spec) (s : Seen) (a : String) : Except UsageError Seen :=
  let before := match s.pending with
    | .operands values => values
    | _ => []
  match spec.operands with
  | none =>
    match s.pending with
    | .operands values => .ok { s with pending := .operands (values ++ [a]) }
    | _ => do return { ← s.settle spec with pending := .operands [a] }
  | some limit =>
    if s.operands.length + before.length < limit then do
      return { ← s.settle spec with pending := .operands [a] }
    else .error .unknownArgument

/-- Reads an option without a value in the same argument. -/
def Seen.option (spec : Spec) (s : Seen) (o : Switch) : Except UsageError Seen := do
  let s ← s.settle spec
  match o.effect with
  | .flag => s.add o none
  | .value _ => return { s with pending := .option o none }
  | .help => .error .help
  | .version => .error .version

/-- Reads an option with a value in the same argument. -/
def Seen.optionWith (spec : Spec) (s : Seen) (o : Switch) (value : String) :
    Except UsageError Seen :=
  match o.effect with
  | .value _ => do (← s.settle spec).add o (some value)
  | _ => .error .tooManyValues

/-- Reads what follows two dashes: a name, perhaps with `=` and a value. -/
def Seen.long (spec : Spec) (s : Seen) (cs : List Char) : Except UsageError Seen :=
  let name := String.ofList (cs.takeWhile (· ≠ '='))
  match spec.options.find? (·.name == name) with
  | none => .error .unknownArgument
  | some o =>
    match cs.dropWhile (· ≠ '=') with
    | [] => s.option spec o
    | _ :: value => s.optionWith spec o (String.ofList value)

/-- Reads what follows one dash: flags, then perhaps an option that takes the rest as its value,
without an `=` before it. -/
def Seen.shorts (spec : Spec) (s : Seen) : List Char → Except UsageError Seen
  | [] => .ok s
  | c :: cs =>
    match spec.options.find? (·.short == some c) with
    | none => .error .unknownArgument
    | some o =>
      match o.effect, cs with
      | .value _, [] => s.option spec o
      | .value _, '=' :: value => s.optionWith spec o (String.ofList value)
      | .value _, value => s.optionWith spec o (String.ofList value)
      | _, _ => do (← s.option spec o).shorts spec cs

/-- Reads one argument before any `--`. -/
def Seen.argument (spec : Spec) (s : Seen) (a : String) : Except UsageError Seen :=
  match a.toList with
  | '-' :: '-' :: cs => s.long spec cs
  | '-' :: c :: cs => s.shorts spec (c :: cs)
  | _ =>
    match s.pending with
    | .option o none => .ok { s with pending := .option o (some a) }
    | _ => s.operand spec a

/-- Reads arguments to the end; `plain` says that only operands are left. -/
def Seen.arguments (spec : Spec) (plain : Bool) (s : Seen) : List String → Except UsageError Seen
  | [] => s.settle spec
  | a :: rest =>
    if plain then do (← s.operand spec a).arguments spec true rest
    else if a = "--" then s.arguments spec true rest
    else do (← s.argument spec a).arguments spec false rest

def read (spec : Spec) (args : List String) : Except UsageError Seen :=
  Seen.nothing.arguments spec false args

def Seen.has (s : Seen) (name : String) : Bool := (s.options.lookup name).isSome

def Seen.value? (s : Seen) (name : String) : Option String := (s.options.lookup name).join

end Usage

end Parley
