import TreeReduction.Kernel

set_option autoImplicit false

/-!
# Phases of a step

A step as a small machine: it selects, one projection after the other, until a pattern matches; it
applies that projection; and it is done. `Phase.next` is the machine's transition and
`Kernel.phases` lists what it goes through, ending in the outcome of the step.

A phase can be rendered as a value around the one being reduced. The rendering holds reserved keys,
so no caller can pass one in.
-/

namespace TreeReduction

/-- Where a step stands. -/
inductive Phase where
  /-- looking for a match among the projections left -/
  | select (remaining : List Projection)
  /-- filling in the body of the projection that matched -/
  | apply (projection : Projection) (bindings : Bindings)
  /-- decided -/
  | done (outcome : Outcome)

namespace Phase

/-- The word for a phase. -/
def mode : Phase → String
  | .select _ => "select"
  | .apply .. => "apply"
  | .done _ => "done"

/-- A text or nothing, as a value. -/
def idValue : Option String → Value
  | some id => .str id
  | none => .null

/-- The phase of a step from a value, as a value. -/
def toValue (v : Value) (phase : Phase) : Value :=
  match phase with
  | .select remaining =>
    .map [("_mode", .str phase.mode), ("_projs", Projection.chainToValue remaining), ("_step", v)]
  | .apply projection bindings =>
    .map [("_bindings", .map bindings), ("_match", projection.toValue), ("_mode", .str phase.mode),
      ("_step", v)]
  | .done outcome =>
    .map [("_match", idValue outcome.fired?), ("_mode", .str phase.mode), ("_step", v)]

/-- The phase after another one; what is done stays so. -/
def next (k : Kernel) (v : Value) (before : Digest) : Phase → Phase
  | .select [] => .done (.stalled .noMatch)
  | .select (p :: rest) =>
    match k.match? p v with
    | some bindings => .apply p bindings
    | none => .select rest
  | .apply p bindings => .done (k.commit p bindings before)
  | .done outcome => .done outcome

end Phase

namespace Kernel

/-- The phases of selecting among projections and of what follows. -/
def phasesFrom (k : Kernel) (v : Value) (before : Digest) : List Projection → List Phase
  | [] => [.select [], .done (.stalled .noMatch)]
  | p :: rest =>
    .select (p :: rest) ::
      match k.match? p v with
      | some bindings => [.apply p bindings, .done (k.commit p bindings before)]
      | none => phasesFrom k v before rest

/-- The phases of a step from an admitted value with the digest `before`. -/
def phases (k : Kernel) (v : Value) (before : Digest) : List Phase :=
  k.phasesFrom v before k.catalog.projections

end Kernel

end TreeReduction
