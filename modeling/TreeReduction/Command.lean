set_option autoImplicit false

/-!
# Commands

What a user may ask for: a command with the values and files it works on, and what holds for every
command. A value is given as JSON, or as a path after an at sign.
-/

namespace TreeReduction

/-- How a trace is written. -/
inductive TraceFormat where
  /-- one line of JSON a step -/
  | lines
  | binary
  deriving DecidableEq

/-- What to do. -/
inductive Command where
  /-- tell what a seed holds -/
  | verify (seed : String)
  /-- give a seed its checksum and print it, or write it to a file -/
  | sealed (seed : String) (output : Option String)
  /-- take one step from a value -/
  | step (seed value : String)
  /-- take steps until nothing changes or the budget is spent, and write the trace if asked to -/
  | run (seed value : String) (maxSteps : Option Nat) (traceOut : Option String)
      (format : TraceFormat)
  /-- tell the shape of a value and, if asked to, how it is linked -/
  | classify (value : String) (normalize : Bool)
  /-- tell the digest of a value -/
  | digest (value : String)
  deriving DecidableEq

/-- The path in an argument that gives a value by a file. -/
def filePath? (argument : String) : Option String :=
  match argument.toList with
  | '@' :: path => some (String.ofList path)
  | _ => none

/-- The paths that a command names. -/
def Command.paths : Command → List String
  | .verify seed => [seed]
  | .sealed seed output => seed :: output.toList
  | .step seed value => seed :: (filePath? value).toList
  | .run seed value _ traceOut _ => seed :: (filePath? value).toList ++ traceOut.toList
  | .classify value _ => (filePath? value).toList
  | .digest value => (filePath? value).toList

/-- A command and what holds for every command. -/
structure Invocation where
  command : Command
  verbose : Bool := false
  quiet : Bool := false
  /-- whether to answer in JSON -/
  json : Bool := false
  /-- the path of the settings -/
  config : Option String := none
  deriving DecidableEq

end TreeReduction
