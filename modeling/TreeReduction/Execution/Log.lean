import TreeReduction.Execution
import TreeReduction.Kernel.Log

set_option autoImplicit false

/-!
# Logs of executions

What is told of each operation on an execution, given where it stands before the operation. A
refused operation tells nothing.
-/

namespace TreeReduction.Execution

/-- The log of a stall. -/
def enterStallLog (least : Severity) (e : Execution) (reason : StallReason) : Log :=
  let fields := [("pattern", reason.patternId), ("value", e.digest.short)]
  if e.remembers reason.patternId then
    Log.one least .warn "closure evidence: second independent stall" fields
  else Log.one least .debug "stall recorded" fields

/-- The log of a step of an active execution. -/
def advanceActiveLog (least : Severity) (e : Execution) : Log :=
  e.kernel.phaseLog least e.value e.digest ++
    match e.kernel.apply e.value e.digest with
    | .reduced projection _ after =>
      Log.one least .debug "reduced"
        [("step", toString e.steps), ("projection", projection), ("after", after.short)]
    | .stalled reason => e.enterStallLog least reason
    | .exhausted resource projection => Kernel.dropLog least e.steps resource projection

/-- The log of a step. -/
def advanceLog (least : Severity) (e : Execution) : Log :=
  if e.status = .active then e.advanceActiveLog least else []

/-- The log of up to `budget` steps of an active execution. -/
def runActiveLog (least : Severity) : (budget : Nat) → Execution → Log
  | 0, _ => []
  | budget + 1, e =>
    e.advanceActiveLog least ++
      match e.advanceActive with
      | (.reduced _, next) => runActiveLog least budget next
      | _ => []

/-- The log of a run. -/
def runLog (least : Severity) (e : Execution) (maxSteps : Nat) : Log :=
  if e.status = .active then e.runActiveLog least maxSteps else []

/-- The log of a reported stall. -/
def stallLog (least : Severity) (e : Execution) (pattern : String) : Log :=
  if e.status = .active then e.enterStallLog least (.external pattern) else []

/-- The log of a new value that was put in the place of one with the digest `before`. -/
def fixLog (least : Severity) (before : Digest) (replacement : Value) : Log :=
  Log.one least .info "fix applied"
    [("before", before.short), ("after", replacement.digest.short)]

end TreeReduction.Execution
