import TreeReduction.Catalog
import TreeReduction.Halt
import TreeReduction.Instantiation
import TreeReduction.Value.Canonical

set_option autoImplicit false

/-!
# Steps

A step applies the first projection whose pattern matches and never looks past it. Its body, filled
in, becomes the new value, unless it names an unbound variable, breaks the limits or makes the value
that was there before.

Values enter through `Kernel.accept`, which holds them to the limits and keeps reserved keys out.
-/

namespace TreeReduction

/-- What a step did. -/
inductive Outcome where
  /-- the projection made a new value, with the digest given -/
  | reduced (projection : String) (value : Value) (digest : Digest)
  /-- nothing changed -/
  | stalled (reason : StallReason)
  /-- the projection made a value that breaks the limits, which was dropped -/
  | exhausted (resource : Resource) (projection : String)

/-- The projection that fired in a step. -/
def Outcome.fired? : Outcome → Option String
  | .reduced projection _ _ => some projection
  | .stalled reason => reason.fired?
  | .exhausted _ projection => some projection

/-- A catalog with the limits that its values are held to. -/
structure Kernel where
  catalog : Catalog
  limits : Limits

namespace Kernel

/-- Lets a value in, or says what is wrong with it. -/
def accept (k : Kernel) (v : Value) : Except Violation Unit :=
  match v.check k.limits with
  | .error e => .error e
  | .ok _ => v.refuseReserved

/-- The bindings under which a projection matches a value. -/
def match? (k : Kernel) (p : Projection) (v : Value) : Option Bindings :=
  p.pattern.match? k.limits.maxDepth v

/-- What comes of a projection that matched a value with the digest `before`. -/
def commit (k : Kernel) (p : Projection) (bindings : Bindings) (before : Digest) : Outcome :=
  match p.body.instantiate bindings with
  | .error unbound => .stalled (.unbound p.id unbound.name)
  | .ok next =>
    match next.overrun? k.limits with
    | some resource => .exhausted resource p.id
    | none =>
      let after := next.digest
      if after = before then .stalled (.fixedPoint p.id) else .reduced p.id next after

/-- What comes of trying projections in order. -/
def tryEach (k : Kernel) (v : Value) (before : Digest) : List Projection → Outcome
  | [] => .stalled .noMatch
  | p :: rest =>
    match k.match? p v with
    | some bindings => k.commit p bindings before
    | none => tryEach k v before rest

/-- A step from an admitted value with the digest `before`. -/
def apply (k : Kernel) (v : Value) (before : Digest) : Outcome :=
  k.tryEach v before k.catalog.projections

/-- A step, and what it did. -/
def outcome (k : Kernel) (v : Value) : Except Violation Outcome :=
  match k.accept v with
  | .error e => .error e
  | .ok _ => .ok (k.apply v v.digest)

/-- A step, and the value after it. -/
def step (k : Kernel) (v : Value) : Except Violation Value :=
  (k.outcome v).map fun
    | .reduced _ next _ => next
    | _ => v

end Kernel

end TreeReduction
