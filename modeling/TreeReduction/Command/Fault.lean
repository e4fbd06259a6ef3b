import TreeReduction.Execution
import TreeReduction.Files
import TreeReduction.Seed.Document

set_option autoImplicit false

/-!
# Faults of commands

Why a command came to nothing: the settings, a file, the seed or the value is not what it should be.
A command that fails prints nothing and writes nothing.
-/

namespace TreeReduction

/-- Why a file that a command names cannot be used. Paths stand as the user gave them. -/
inductive FileFault where
  | badPath (path : String) (cause : AccessFault)
  | notRegular (path : String)
  | tooLarge (bytes limit : Nat)
  | unreadable (cause : AccessFault)
  | badDirectory (path : String) (cause : AccessFault)
  | notDirectory (path : String)
  | noFileName
  | unwritable (cause : AccessFault)
  deriving DecidableEq

/-- The wording of a file fault. -/
def FileFault.message : FileFault → String
  | .badPath path cause => s!"Invalid file path '{path}': {cause.message}"
  | .notRegular path => s!"Path '{path}' is not a regular file"
  | .tooLarge bytes limit => s!"File size {bytes} bytes exceeds maximum allowed {limit} bytes"
  | .unreadable cause => s!"Read file: {cause.message}"
  | .badDirectory path cause => s!"Invalid output directory '{path}': {cause.message}"
  | .notDirectory path => s!"Output directory '{path}' is not a valid directory"
  | .noFileName => "Output path has no filename"
  | .unwritable cause => s!"Write file: {cause.message}"

/-- Why there are no settings. -/
inductive SettingsFault where
  | unreadable (path : String) (cause : AccessFault)
  /-- the file holds no settings, or no text at all -/
  | invalid
  deriving DecidableEq

/-- The wording of a settings fault. -/
def SettingsFault.message : SettingsFault → String
  | .unreadable path cause => s!"Configuration error: {path}: {cause.message}"
  | .invalid => "Configuration error: <toml>"

/-- Why a command failed. -/
inductive CommandFault where
  | settings (fault : SettingsFault)
  | file (fault : FileFault)
  | seed (fault : Seed.Fault)
  | value (violation : Violation)
  /-- an execution refused to run -/
  | refused (refusal : Refusal)

/-- The wording of why a command failed. -/
def CommandFault.message : CommandFault → String
  | .settings fault => fault.message
  | .file fault => s!"I/O error: {fault.message}"
  | .seed fault => fault.message
  | .value violation => violation.message
  | .refused refusal => refusal.message

end TreeReduction
