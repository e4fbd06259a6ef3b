import TreeReduction.Text.Blank
import TreeReduction.Value.Limits

set_option autoImplicit false

/-!
# Projections

A rule with a name: a value that the pattern matches becomes the body, its variable sites filled
with what they are bound to. `Projection.check` says which rules are fit to be used, and
`Projection.toValue` and `Projection.chainToValue` render one rule and a sequence of them as values.
-/

namespace TreeReduction

/-- A named rule. -/
structure Projection where
  id : String
  pattern : Value
  body : Value
  deriving Inhabited

namespace Projection

/-- Whether a text may name a projection: it is not empty, does not start like a control id and has
no blank at either end. -/
def isValidId (id : String) : Bool :=
  id.toList.head?.any (· != '<') && Text.isTrimmed id

/-- Checks the pattern or the body of a projection. -/
def checkSide (limits : Limits) (side : Value) : Except Violation Unit :=
  match side.check limits, side.refuseReserved with
  | .error e, _ => .error e
  | .ok _, .error e => .error e
  | .ok _, .ok _ => if side.variableNames.contains "" then .error .emptyVariableName else .ok ()

/-- Checks a projection: its id, then its pattern, then its body. -/
def check (limits : Limits) (p : Projection) : Except Violation Unit :=
  if isValidId p.id then
    match checkSide limits p.pattern with
    | .error e => .error e
    | .ok _ => checkSide limits p.body
  else .error (.invalidProjectionId p.id)

/-- A projection as a value. -/
def toValue (p : Projection) : Value :=
  .map [("body", p.body), ("id", .str p.id), ("pattern", p.pattern)]

/-- A sequence of projections as a value: maps of a first one and the rest, closed by `null`. -/
def chainToValue : List Projection → Value
  | [] => .null
  | p :: rest => .map [("head", p.toValue), ("rest", chainToValue rest)]

end Projection

end TreeReduction
