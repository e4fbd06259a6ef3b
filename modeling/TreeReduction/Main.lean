import TreeReduction.Command.Arguments
import TreeReduction.Command.Perform

set_option autoImplicit false

/-!
# The program

Takes arguments, looks at the files that they name, performs the command and does what comes of it.
What is printed goes to the standard output; the log and faults go to the standard error.
-/

namespace TreeReduction

/-- What the program tells of itself. -/
def usage : String :=
  String.intercalate "\n" [
    "Reduces trees by the projections of a seed until nothing applies.",
    "",
    "  verify    -s SEED                  tell what a seed holds",
    "  seal      -s SEED [-o FILE]        give a seed its checksum",
    "  step      -s SEED -i VALUE         take one step",
    "  run       -s SEED -i VALUE [-m STEPS] [-t FILE] [-f jsonl|binary]",
    "                                     take steps until nothing changes",
    "  classify  -i VALUE [-n]            tell the shape of a value",
    "  hash      -i VALUE                 tell the digest of a value",
    "",
    "  -v  tell more   -q  tell less   -c FILE  settings   --json-mode  answer in JSON",
    "",
    "A value is JSON, or the path of a file after an at sign."]

/-- The version of the program. -/
def versionText : String := "0.4.2"

/-- The variable that holds the path of the settings. -/
def configVariable : String := "MURED_CONFIG"

/-- What stands at a place. -/
def observe (l : Location) : IO (Option FileNode) := do
  try
    let real ← IO.FS.realPath l.text
    if ← real.isDir then return some .directory
    return some (.file (← IO.FS.readBinFile real))
  catch _ => return none

/-- The files that paths lead past. -/
def observeAll (paths : List String) : IO Files := do
  let here : Location := ⟨((← IO.currentDir).toString.splitOn "/").filter (· != "")⟩
  let places := paths.flatMap fun path => Files.passed (Files.start here path) (Files.pieces path)
  let listed ← places.eraseDups.filterMapM fun l => do return (← observe l).map (l, ·)
  return .ofList here listed

/-- Prints the log. -/
def printLog (log : Log) : IO Unit :=
  log.forM fun e =>
    IO.eprintln (" ".intercalate
      (e.level.text :: e.message :: e.fields.map fun f => s!"{f.1}={f.2}"))

/-- Performs an invocation. -/
def perform (i : Invocation) : IO UInt32 := do
  let configPath ← IO.getEnv configVariable
  let config := i.config <|> configPath
  let files ← observeAll (config.getD Surroundings.defaultConfig :: i.command.paths)
  let (done, log) :=
    i.perform { files, configPath, least := if i.verbose then .debug else .info }
  printLog log
  match done with
  | .error fault =>
    IO.eprintln s!"Error: {fault.message}"
    return 1
  | .ok effect =>
    match effect.written with
    | some w => IO.FS.writeBinFile w.place.text w.content
    | none => pure ()
    IO.print effect.printed
    return 0

/-- Runs the program. -/
def runProgram (args : List String) : IO UInt32 := do
  match Invocation.ofArguments args with
  | .error .help =>
    IO.println usage
    return 0
  | .error .version =>
    IO.println versionText
    return 0
  | .error fault =>
    IO.eprintln s!"Error: {fault.message}\n\n{usage}"
    return 2
  | .ok i =>
    unless i.quiet || i.json do IO.eprintln "Structural reduction of trees"
    perform i

end TreeReduction

/-- Runs the program on the arguments of the command line. -/
def main (args : List String) : IO UInt32 :=
  TreeReduction.runProgram args
