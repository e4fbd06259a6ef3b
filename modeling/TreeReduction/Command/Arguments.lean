import TreeReduction.Command

set_option autoImplicit false

/-!
# Arguments

How an invocation is written: options of the program, the name of a command, and options of the
command. Some options may stand before the name or after it; an option after the name counts. No
command takes anything but options.

An option with a value takes it from its own argument (`--value=1`, `-i1`, `-i=1`) or from the next,
which may then not begin with a hyphen unless it is one alone. Options of one letter may share an
argument. What is taken from the next argument is looked at only when another option follows or the
arguments end, so of two faults the one met first is not always the one that stands first.
-/

namespace TreeReduction

/-- Why arguments are no invocation. -/
inductive UsageFault where
  /-- the user asks for help -/
  | help
  /-- the user asks for the version -/
  | version
  /-- there is not one option nor command -/
  | nothingGiven
  /-- there are options but no command -/
  | noCommand
  | unknownCommand
  /-- an option that the command needs is not there -/
  | missingOption
  | unknownArgument
  /-- an option has no value, or none of those it may have -/
  | invalidValue
  /-- the value of an option cannot be read -/
  | malformedValue
  /-- an option without a value has one -/
  | needlessValue
  /-- an option is there twice -/
  | repeated
  deriving DecidableEq

/-- The wording of a usage fault. -/
def UsageFault.message : UsageFault → String
  | .help => "help is asked for"
  | .version => "the version is asked for"
  | .nothingGiven => "a command is needed"
  | .noCommand => "a command is needed after the options"
  | .unknownCommand => "no command has this name"
  | .missingOption => "an option that the command needs is missing"
  | .unknownArgument => "an argument is unknown"
  | .invalidValue => "an option has no value, or one that it cannot have"
  | .malformedValue => "the value of an option cannot be read"
  | .needlessValue => "an option has a value but takes none"
  | .repeated => "an option stands twice"

/-! ## Options -/

/-- An option. -/
inductive Flag where
  | verbose
  | quiet
  | config
  | json
  | help
  | version
  | seed
  | output
  | value
  | maxSteps
  | traceOut
  | traceFormat
  | normalize
  deriving DecidableEq

namespace Flag

/-- The name after two hyphens. -/
def longName : Flag → String
  | .verbose => "verbose"
  | .quiet => "quiet"
  | .config => "config"
  | .json => "json-mode"
  | .help => "help"
  | .version => "version"
  | .seed => "seed"
  | .output => "output"
  | .value => "value"
  | .maxSteps => "max-steps"
  | .traceOut => "trace-out"
  | .traceFormat => "trace-format"
  | .normalize => "normalize"

/-- The letter after one hyphen. -/
def letter? : Flag → Option Char
  | .verbose => some 'v'
  | .quiet => some 'q'
  | .config => some 'c'
  | .json => none
  | .help => some 'h'
  | .version => some 'V'
  | .seed => some 's'
  | .output => some 'o'
  | .value => some 'i'
  | .maxSteps => some 'm'
  | .traceOut => some 't'
  | .traceFormat => some 'f'
  | .normalize => some 'n'

/-- Whether an option has a value. -/
def hasValue : Flag → Bool
  | .verbose | .quiet | .json | .help | .version | .normalize => false
  | _ => true

end Flag

/-- The format of a name. -/
def TraceFormat.ofName? (name : String) : Option TraceFormat :=
  if name = "jsonl" then some .lines
  else if name = "binary" then some .binary
  else none

/-- The number that decimal digits spell, after a plus sign if there is one, if it fits 64
bits. -/
def readCount? (s : String) : Option Nat :=
  let digits :=
    match s.toList with
    | '+' :: rest => rest
    | letters => letters
  if digits.isEmpty || digits.any (!·.isDigit) then none
  else
    let n := digits.foldl (fun n c => 10 * n + (c.toNat - '0'.toNat)) 0
    if n < UInt64.size then some n else none

/-- Checks that an option may have a value. A path is not empty. -/
def Flag.checkValue (flag : Flag) (value : String) : Except UsageFault Unit :=
  match flag with
  | .config | .seed | .output | .traceOut => if value = "" then .error .invalidValue else .ok ()
  | .traceFormat => if (TraceFormat.ofName? value).isSome then .ok () else .error .invalidValue
  | .maxSteps => if (readCount? value).isSome then .ok () else .error .malformedValue
  | _ => .ok ()

/-! ## Commands and their options -/

/-- The name of a command, or of the program for what stands before it. -/
inductive Scope where
  | program
  | verify
  | sealed
  | step
  | run
  | classify
  | digest
  deriving DecidableEq

namespace Scope

/-- The options of every command, before its name or after it. -/
def everywhere : List Flag := [.verbose, .quiet, .config, .json, .help]

/-- The options that may stand in a scope. -/
def flags : Scope → List Flag
  | .program => .version :: everywhere
  | .verify => .seed :: everywhere
  | .sealed => .seed :: .output :: everywhere
  | .step => .seed :: .value :: everywhere
  | .run => .seed :: .value :: .maxSteps :: .traceOut :: .traceFormat :: everywhere
  | .classify => .value :: .normalize :: everywhere
  | .digest => .value :: everywhere

/-- The command of a name. -/
def ofName? (name : String) : Option Scope :=
  if name = "verify" then some .verify
  else if name = "seal" then some .sealed
  else if name = "step" then some .step
  else if name = "run" then some .run
  else if name = "classify" then some .classify
  else if name = "hash" then some .digest
  else none

/-- The option of a long name. -/
def long? (scope : Scope) (name : String) : Option Flag :=
  scope.flags.find? (·.longName = name)

/-- The option of a letter. -/
def short? (scope : Scope) (letter : Char) : Option Flag :=
  scope.flags.find? (·.letter? = some letter)

end Scope

/-- The command that shows help, for the program or for a command that is named after it. -/
def helpName : String := "help"

/-! ## Collecting options -/

/-- The options read so far. -/
structure Collected where
  /-- the options that count, with their values -/
  given : List (Flag × String) := []
  /-- an option that takes its value from the next argument, and that value once it was met -/
  pending : Option (Flag × Option String) := none

namespace Collected

/-- Counts an option. -/
def add (c : Collected) (flag : Flag) (value : String) : Except UsageFault Collected :=
  match flag with
  | .help => .error .help
  | .version => .error .version
  | _ =>
    if c.given.any (·.1 = flag) then .error .repeated
    else
      match flag.checkValue value with
      | .error e => .error e
      | .ok _ => .ok { c with given := (flag, value) :: c.given }

/-- Looks at an option that was pending. -/
def settle (c : Collected) : Except UsageFault Collected :=
  match c.pending with
  | none => .ok c
  | some (_, none) => .error .invalidValue
  | some (flag, some value) => add { c with pending := none } flag value

/-- Counts an option after settling the one before it. -/
def put (c : Collected) (flag : Flag) (value : String) : Except UsageFault Collected :=
  match c.settle with
  | .error e => .error e
  | .ok c => c.add flag value

/-- Leaves an option pending after settling the one before it. -/
def expect (c : Collected) (flag : Flag) : Except UsageFault Collected :=
  match c.settle with
  | .error e => .error e
  | .ok c => .ok { c with pending := some (flag, none) }

/-- The option whose value the next argument is, unless it begins with a hyphen. -/
def awaits? (c : Collected) : Option Flag :=
  match c.pending with
  | some (flag, none) => some flag
  | _ => none

/-- Whether an option counts. -/
def has (c : Collected) (flag : Flag) : Bool :=
  c.given.any (·.1 = flag)

/-- The value of an option. -/
def value? (c : Collected) (flag : Flag) : Option String :=
  (c.given.find? (·.1 = flag)).map (·.2)

end Collected

/-- Splits a name from a value after an equals sign. -/
def splitEquals (letters : List Char) : String × Option String :=
  let name := String.ofList (letters.takeWhile (· != '='))
  match letters.dropWhile (· != '=') with
  | _ :: value => (name, some (String.ofList value))
  | [] => (name, none)

namespace Scope

/-- Reads an option of a long name, without its hyphens. -/
def readLong (scope : Scope) (c : Collected) (letters : List Char) : Except UsageFault Collected :=
  let (name, value) := splitEquals letters
  match scope.long? name with
  | none => .error .unknownArgument
  | some flag =>
    match flag.hasValue, value with
    | true, some value => c.put flag value
    | true, none => c.expect flag
    | false, some _ => .error .needlessValue
    | false, none => c.put flag ""

/-- Reads options of one letter, without their hyphen. What follows an option with a value is its
value. -/
def readShort (scope : Scope) (c : Collected) : List Char → Except UsageFault Collected
  | [] => .ok c
  | letter :: rest =>
    match scope.short? letter with
    | none => .error .unknownArgument
    | some flag =>
      if flag.hasValue then
        match rest with
        | [] => c.expect flag
        | '=' :: value => c.put flag (String.ofList value)
        | value => c.put flag (String.ofList value)
      else
        match c.put flag "" with
        | .error e => .error e
        | .ok c => readShort scope c rest

/-- The fault of an argument that is neither an option nor the value of one. -/
def strayFault : Scope → UsageFault
  | .program => .unknownCommand
  | _ => .unknownArgument

/-- The fault of an argument after the mark that ends the options. -/
def trailingFault (scope : Scope) (arg : String) : UsageFault :=
  match scope with
  | .program =>
    if arg = helpName ∨ (ofName? arg).isSome then .unknownArgument else .unknownCommand
  | _ => .unknownArgument

/-- Reads options up to the name of a command, if one may stand here, or up to the end. -/
def readOptions (scope : Scope) (c : Collected) :
    List String → Except UsageFault (Collected × List String)
  | [] => .ok (c, [])
  | arg :: rest =>
    if scope = .program ∧ c.awaits? = none ∧ (arg = helpName ∨ (ofName? arg).isSome) then
      .ok (c, arg :: rest)
    else
      match arg.toList with
      | ['-', '-'] =>
        match rest with
        | [] => .ok (c, [])
        | next :: _ => .error (scope.trailingFault next)
      | '-' :: '-' :: letters =>
        match scope.readLong c letters with
        | .error e => .error e
        | .ok c => readOptions scope c rest
      | '-' :: letter :: letters =>
        match scope.readShort c (letter :: letters) with
        | .error e => .error e
        | .ok c => readOptions scope c rest
      | _ =>
        match c.awaits? with
        | some flag => readOptions scope { c with pending := some (flag, some arg) } rest
        | none => .error scope.strayFault

end Scope

/-! ## Invocations -/

/-- The command of a scope with its options. -/
def Scope.command? (scope : Scope) (c : Collected) : Option Command := do
  match scope with
  | .program => none
  | .verify => return .verify (← c.value? .seed)
  | .sealed => return .sealed (← c.value? .seed) (c.value? .output)
  | .step => return .step (← c.value? .seed) (← c.value? .value)
  | .run =>
    let format := ((c.value? .traceFormat).bind TraceFormat.ofName?).getD .lines
    return .run (← c.value? .seed) (← c.value? .value) ((c.value? .maxSteps).bind readCount?)
      (c.value? .traceOut) format
  | .classify => return .classify (← c.value? .value) (c.has .normalize)
  | .digest => return .digest (← c.value? .value)

/-- What the arguments after the name of the command for help come to: help, unless they name
anything but one command. -/
def helpFault : List String → UsageFault
  | [] => .help
  | [name] => if name = helpName ∨ (Scope.ofName? name).isSome then .help else .unknownCommand
  | _ => .unknownCommand

/-- Reads a command and its options. -/
def readCommand (scope : Scope) (args : List String) : Except UsageFault (Command × Collected) :=
  match scope.readOptions {} args with
  | .error e => .error e
  | .ok (c, _) =>
    match c.settle with
    | .error e => .error e
    | .ok c =>
      match scope.command? c with
      | some command => .ok (command, c)
      | none => .error .missingOption

/-- The invocation that arguments spell. -/
def Invocation.ofArguments (args : List String) : Except UsageFault Invocation :=
  match Scope.program.readOptions {} args with
  | .error e => .error e
  | .ok (before, []) =>
    match before.settle with
    | .error e => .error e
    | .ok before => .error (if before.given.isEmpty then .nothingGiven else .noCommand)
  | .ok (before, name :: rest) =>
    match Scope.ofName? name with
    | none => .error (helpFault rest)
    | some scope =>
      match readCommand scope rest with
      | .error e => .error e
      | .ok (command, after) =>
        match before.settle with
        | .error e => .error e
        | .ok before =>
          .ok { command
                verbose := after.has .verbose || before.has .verbose
                quiet := after.has .quiet || before.has .quiet
                json := after.has .json || before.has .json
                config := after.value? .config <|> before.value? .config }

end TreeReduction
