import TreeReduction.Command
import TreeReduction.Command.Fault
import TreeReduction.Command.Report
import TreeReduction.Execution.Log
import TreeReduction.Settings
import TreeReduction.Trace.Binary

set_option autoImplicit false

/-!
# Performing commands

What a command does, given the files around it. It reads files and either fails or answers an
`Effect`: a text to print and a file to write, one at most. The effect is left to whoever performs
it, as `Effect.apply` does on files that are data, so a command that fails leaves everything as it
was. The log tells of a command that fails too.
-/

namespace TreeReduction

/-- A file to write. -/
structure Writing where
  place : Location
  content : ByteArray

/-- What a command does in the end. -/
structure Effect where
  printed : String := ""
  written : Option Writing := none

/-- The files after an effect. -/
def Effect.apply (e : Effect) (f : Files) : Files :=
  match e.written with
  | none => f
  | some w => f.put w.place w.content

/-- What a command is given. -/
structure Surroundings where
  files : Files
  /-- the path of the settings that holds if the user names none -/
  configPath : Option String := none
  /-- the least severe messages that are wanted -/
  least : Severity := .error

/-- A computation that may fail, with the log of it in either case. -/
abbrev Performing (α : Type) : Type := ExceptT CommandFault (StateM Log) α

namespace Performing

/-- Adds to the log. -/
def tell (log : Log) : Performing Unit :=
  modify (· ++ log)

/-- Fails where there is a fault. -/
def orFault {ε α : Type} (fault : ε → CommandFault) : Except ε α → Performing α
  | .ok a => pure a
  | .error e => throw (fault e)

end Performing

open Performing

namespace Surroundings

variable (around : Surroundings)

/-- Adds one message to the log, if it is wanted. -/
def report (level : Severity) (message : String) (fields : List (String × String)) :
    Performing Unit :=
  tell (Log.one around.least level message fields)

/-! ## Settings -/

/-- The file of the settings that is read if no path is named and there is one. -/
def defaultConfig : String := "mured.toml"

/-- The settings in the file at a path. -/
def readSettings (path : String) : Performing Settings := do
  match around.files.readPath path with
  | .error cause =>
    around.report .warn s!"Failed to read config at {Text.quotedBoth path}: {cause.message}" []
    throw (.settings (if cause = .notText then .invalid else .unreadable path cause))
  | .ok text =>
    match Settings.parse? text with
    | none =>
      around.report .warn
        s!"Failed to parse config at {Text.quotedBoth path}: {SettingsFault.invalid.message}" []
      throw (.settings .invalid)
    | some settings =>
      around.report .debug "config loaded" [("path", path)]
      return settings

/-- The settings that hold, given the path that the user names. -/
def settings (named : Option String) : Performing Settings := do
  match named <|> around.configPath with
  | some path => around.readSettings path
  | none =>
    match around.files.resolve defaultConfig with
    | .ok _ => around.readSettings defaultConfig
    | .error _ =>
      around.report .debug "no config file, using defaults" []
      return {}

/-! ## Files that are read -/

/-- The place of the file that a path leads to. -/
def inputPlace (path : String) : Except FileFault Location :=
  match around.files.resolve path with
  | .error cause => .error (.badPath path cause)
  | .ok place =>
    match around.files.node? place with
    | some (.file _) => .ok place
    | _ => .error (.notRegular path)

/-- The text in the file at a place. -/
def readFile (place : Location) : Except AccessFault String :=
  match around.files.content place with
  | .error e => .error e
  | .ok content => Files.decode content

/-- The most bytes of a file that holds a value or a seed. -/
def maxFileBytes : Nat := 16 * 1024 * 1024

/-- The number of bytes in the file at a place. -/
def sizeOf (place : Location) : Nat :=
  match around.files.content place with
  | .ok content => content.size
  | .error _ => 0

/-- The text of a value that an argument gives, itself or by the path of a file. -/
def valueText (argument : String) : Except FileFault String :=
  match filePath? argument with
  | some path =>
    match around.inputPlace path with
    | .error e => .error e
    | .ok place =>
      if maxFileBytes < around.sizeOf place then
        .error (.tooLarge (around.sizeOf place) maxFileBytes)
      else
        match around.readFile place with
        | .ok text => .ok text
        | .error cause => .error (.unreadable cause)
  | none => .ok argument

/-- The value that an argument gives. -/
def value (s : Settings) (argument : String) : Performing Value := do
  let text ← orFault .file (around.valueText argument)
  orFault .value (Value.parse s.limits text)

/-- The text of the seed at a place. -/
def seedText (place : Location) : Except Seed.Fault String :=
  let bytes := around.sizeOf place
  if maxFileBytes < bytes then
    .error (.unreadable s!"{place.text}: seed file is {bytes} bytes, limit is {maxFileBytes}")
  else
    match around.readFile place with
    | .ok text => .ok text
    | .error cause => .error (.unreadable s!"{place.text}: {cause.message}")

/-- The seed in the file that a path leads to. -/
def seed (s : Settings) (path : String) : Performing Seed := do
  let place ← orFault .file (around.inputPlace path)
  let text ← orFault .seed (around.seedText place)
  around.report .debug "reading seed"
    [("path", place.text), ("bytes", toString (around.sizeOf place))]
  let loaded ← orFault .seed (s.loader.load text)
  tell (Seed.loadLog around.least loaded)
  return loaded

/-! ## Files that are written -/

/-- The directory and the name of the file that a path is meant for. -/
def outputPlace (path : String) : Except FileFault (Location × String) :=
  let directory := Files.directoryPath path
  match around.files.resolve directory with
  | .error cause => .error (.badDirectory directory cause)
  | .ok place =>
    match around.files.node? place with
    | some .directory =>
      match Files.fileName? path with
      | some name => .ok (place, name)
      | none => .error .noFileName
    | _ => .error (.notDirectory directory)

/-- The writing of a file at a path. -/
def writing (path : String) (content : ByteArray) : Except FileFault Writing :=
  match around.outputPlace path with
  | .error e => .error e
  | .ok (directory, name) =>
    match around.files.checkWritable directory name with
    | .error cause => .error (.unwritable cause)
    | .ok _ => .ok ⟨directory.child name, content⟩

/-! ## Commands -/

/-- Tells what a seed holds. -/
def verify (s : Settings) (json : Bool) (path : String) : Performing Effect := do
  let loaded ← around.seed s path
  return { printed := if json then Report.seedJson path loaded else Report.seedLines loaded }

/-- Gives a seed its checksum. -/
def giveChecksum (s : Settings) (path : String) (output : Option String) : Performing Effect := do
  let place ← orFault .file (around.inputPlace path)
  let source ← orFault (.file ∘ .unreadable) (around.readFile place)
  let sealedText ← orFault .seed (s.loader.sealed source)
  let text := Report.ofLines [sealedText]
  match output with
  | none => return { printed := text }
  | some path =>
    let w ← orFault .file (around.writing path text.toUTF8)
    around.report .info "seed sealed" [("output", w.place.text)]
    return { written := some w }

/-- Takes a step. -/
def step (s : Settings) (json : Bool) (path argument : String) : Performing Effect := do
  let loaded ← around.seed s path
  let v ← around.value s argument
  let kernel : Kernel := ⟨loaded.catalog, s.limits⟩
  let outcome ← orFault .value (kernel.outcome v)
  tell (kernel.stepLog around.least v)
  let result := Report.StepResult.of v outcome
  return { printed := if json then Report.stepJson result else Report.stepLines result }

/-- The bytes of a trace in a format. -/
def traceBytes (trace : Trace) : TraceFormat → ByteArray
  | .lines => (Trace.lines trace).toUTF8
  | .binary => ⟨(Trace.encode trace).toArray⟩

/-- The budget of a run. -/
def budget (s : Settings) (maxSteps : Option Nat) : Nat :=
  min (maxSteps.getD s.maxSteps) Kernel.maxRunSteps

/-- Runs. -/
def run (s : Settings) (json : Bool) (path argument : String) (maxSteps : Option Nat)
    (traceOut : Option String) (format : TraceFormat) : Performing Effect := do
  let loaded ← around.seed s path
  let v ← around.value s argument
  let start ← orFault .value (Execution.start ⟨loaded.catalog, s.limits⟩ v)
  let (halted, e) := start.run (budget s maxSteps)
  let halt ← orFault .refused halted
  tell (start.runLog around.least (budget s maxSteps))
  if 0 < e.dropped then
    around.report .warn "event log full, trace is truncated" [("dropped", toString e.dropped)]
  let printed := if json then Report.runJson halt e else Report.runLines halt e
  match traceOut with
  | none => return { printed }
  | some path =>
    let content := traceBytes e.trace format
    let w ← orFault .file (around.writing path content)
    around.report .info "trace written"
      [("output", w.place.text), ("bytes", toString content.size)]
    return { printed, written := some w }

/-- Tells the shape of a value. -/
def classify (s : Settings) (json : Bool) (argument : String) (normalize : Bool) :
    Performing Effect := do
  let v ← around.value s argument
  let linked ←
    if normalize then some <$> orFault .value (v.toLinkedWithin s.limits) else pure none
  return { printed :=
    if json then Report.shapeJson v.shape linked else Report.shapeLines v.shape linked }

/-- Tells the digest of a value. -/
def digest (s : Settings) (json : Bool) (argument : String) : Performing Effect := do
  let v ← around.value s argument
  return { printed := if json then Report.digestJson v else Report.ofLines [v.digest.hex] }

/-- Performs a command under settings. -/
def command (s : Settings) (json : Bool) : Command → Performing Effect
  | .verify path => around.verify s json path
  | .sealed path output => around.giveChecksum s path output
  | .step path argument => around.step s json path argument
  | .run path argument maxSteps traceOut format =>
    around.run s json path argument maxSteps traceOut format
  | .classify argument normalize => around.classify s json argument normalize
  | .digest argument => around.digest s json argument

end Surroundings

/-- What an invocation does, or why it fails, and its log. -/
def Invocation.perform (i : Invocation) (around : Surroundings) :
    Except CommandFault Effect × Log :=
  ((do around.command (← around.settings i.config) i.json i.command) :
    Performing Effect).run.run []

/-- What an invocation prints, or why it fails, and the files after it. -/
def Invocation.performOn (i : Invocation) (around : Surroundings) :
    Except CommandFault String × Files :=
  match (i.perform around).1 with
  | .error fault => (.error fault, around.files)
  | .ok effect => (.ok effect.printed, effect.apply around.files)

end TreeReduction
