import TreeReduction.Value.Limits

set_option autoImplicit false

/-!
# Stalls and halts

Why a step made no progress, and how a run of steps ended. A stall is a fixed point, an
exhausted resource is not, and the two are kept apart.
-/

namespace TreeReduction

/-- The pattern id that stands for "no pattern matched". No projection may have it. -/
def noMatchId : String := "<no-match>"

/-- Why a step made no progress. -/
inductive StallReason where
  /-- no pattern matched -/
  | noMatch
  /-- the body of the projection names a variable that its pattern does not bind -/
  | unbound (projection name : String)
  /-- the projection made the value it was given -/
  | fixedPoint (projection : String)
  /-- the caller said so, for a pattern of its own -/
  | external (pattern : String)
  deriving DecidableEq

namespace StallReason

/-- The word for a kind of stall. -/
def tag : StallReason → String
  | .noMatch => "no_match"
  | .unbound .. => "unbound_variable"
  | .fixedPoint _ => "fixed_point"
  | .external _ => "external"

/-- The pattern that a stall is remembered under. -/
def patternId : StallReason → String
  | .noMatch => noMatchId
  | .unbound projection _ => projection
  | .fixedPoint projection => projection
  | .external pattern => pattern

/-- The projection that fired in the stalled step. -/
def fired? : StallReason → Option String
  | .unbound projection _ => some projection
  | .fixedPoint projection => some projection
  | .noMatch => none
  | .external _ => none

/-- The wording of a stall. -/
def text : StallReason → String
  | .noMatch => "no projection matched"
  | .unbound projection name => s!"projection {projection} references unbound variable {name}"
  | .fixedPoint projection => s!"projection {projection} produced an unchanged value"
  | .external pattern => s!"stall reported for {pattern}"

end StallReason

/-- How a run ended. -/
inductive Halt where
  | stalled (reason : StallReason)
  | exhausted (resource : Resource)
  deriving DecidableEq

/-- The wording of a halt. -/
def Halt.text : Halt → String
  | .stalled reason => s!"stalled ({reason.text})"
  | .exhausted resource => s!"exhausted {resource.text}"

/-- Whether a run ended in a stall. -/
def Halt.isStalled : Halt → Bool
  | .stalled _ => true
  | .exhausted _ => false

end TreeReduction
