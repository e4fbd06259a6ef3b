import TreeReduction.Kernel
import TreeReduction.Trace

set_option autoImplicit false

/-!
# Runs

Steps one after the other until one changes nothing, breaks the limits, or the budget is spent.
Every attempted step leaves an event, also the last one that changed nothing.
-/

namespace TreeReduction

/-- What a run came to. -/
structure Run where
  /-- the last value within the limits -/
  value : Value
  trace : Trace
  halt : Halt

namespace Kernel

/-- The most steps of one run; a larger budget is cut down to it. -/
def maxRunSteps : Nat := 50000

/-- Runs for `budget` more steps, the first of which has the given index. -/
def runFrom (k : Kernel) : (budget index : Nat) → Value → Digest → Run
  | 0, _, v, _ => ⟨v, [], .exhausted .steps⟩
  | budget + 1, index, v, before =>
    match k.apply v before with
    | .reduced projection next after =>
      let r := runFrom k budget (index + 1) next after
      ⟨r.value, ⟨index, before, after, some projection⟩ :: r.trace, r.halt⟩
    | .stalled reason => ⟨v, [⟨index, before, before, reason.fired?⟩], .stalled reason⟩
    | .exhausted resource projection =>
      ⟨v, [⟨index, before, before, some projection⟩], .exhausted resource⟩

/-- Runs from a value. -/
def run (k : Kernel) (v : Value) (maxSteps : Nat) : Except Violation Run :=
  match k.accept v with
  | .error e => .error e
  | .ok _ => .ok (k.runFrom (min maxSteps maxRunSteps) 0 v v.digest)

end Kernel

end TreeReduction
