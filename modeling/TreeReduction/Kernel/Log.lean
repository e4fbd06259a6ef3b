import TreeReduction.Kernel.Phase
import TreeReduction.Kernel.Run
import TreeReduction.Log

set_option autoImplicit false

/-!
# Logs of steps and runs

What is told of a step: every phase of it, and in a run what came of it; and of a run how it ended.
-/

namespace TreeReduction.Kernel

/-- The log of the phases of a step. -/
def phaseLog (least : Severity) (k : Kernel) (v : Value) (before : Digest) : Log :=
  if Severity.trace.wantedAt least then
    (k.phases v before).map fun phase =>
      ⟨.trace, "kernel phase", [("phase", (phase.toValue v).canonical)]⟩
  else []

/-- The log of a step from a value; a value that is not admitted takes no step. -/
def stepLog (least : Severity) (k : Kernel) (v : Value) : Log :=
  match k.accept v with
  | .error _ => []
  | .ok _ => k.phaseLog least v v.digest

/-- The log of a result that was dropped. -/
def dropLog (least : Severity) (index : Nat) (resource : Resource) (projection : String) : Log :=
  Log.one least .debug "result out of bounds"
    [("step", toString index), ("projection", projection), ("resource", resource.text)]

/-- The log of the steps of a run. -/
def runFromLog (least : Severity) (k : Kernel) : (budget index : Nat) → Value → Digest → Log
  | 0, _, _, _ => []
  | budget + 1, index, v, before =>
    k.phaseLog least v before ++
      match k.apply v before with
      | .reduced projection next after =>
        Log.one least .debug "rewrote"
          [("step", toString index), ("projection", projection), ("before", before.short),
            ("after", after.short)]
          ++ runFromLog least k budget (index + 1) next after
      | .stalled reason =>
        Log.one least .debug "stalled" [("step", toString index), ("reason", reason.tag)]
      | .exhausted resource projection => dropLog least index resource projection

/-- The log of a run. -/
def runLog (least : Severity) (k : Kernel) (v : Value) (maxSteps : Nat) : Log :=
  match k.run v maxSteps with
  | .error _ => []
  | .ok r =>
    k.runFromLog least (min maxSteps maxRunSteps) 0 v v.digest
      ++ Log.one least .info "run complete"
        [("steps", toString r.trace.length), ("halt", r.halt.text)]

end TreeReduction.Kernel
