import TreeReduction.Projection

set_option autoImplicit false

/-!
# Catalogs

An ordered list of projections that is fit to reduce values: every one is valid, no two share an id
and there are not too many. `Catalog.ofList` finds the first thing wrong with a list, one projection
after the other.
-/

namespace TreeReduction

/-- Projections in the order in which they are tried. -/
structure Catalog where
  projections : List Projection

namespace Catalog

/-- The most projections that a catalog holds. -/
def maxProjections : Nat := 4096

/-- Checks projections in order, each for itself and then against the ids before it. -/
def checkEach (limits : Limits) : (seen : List String) → List Projection → Except Violation Unit
  | _, [] => .ok ()
  | seen, p :: rest =>
    match p.check limits with
    | .error e => .error e
    | .ok _ =>
      if seen.contains p.id then .error (.duplicateProjectionId p.id)
      else checkEach limits (p.id :: seen) rest

/-- The catalog of a list of projections. -/
def ofList (limits : Limits) (projections : List Projection) : Except Violation Catalog :=
  if maxProjections < projections.length then
    .error (.tooManyProjections projections.length maxProjections)
  else
    match checkEach limits [] projections with
    | .error e => .error e
    | .ok _ => .ok ⟨projections⟩

/-- The number of projections. -/
def size (c : Catalog) : Nat :=
  c.projections.length

/-- The ids in order. -/
def ids (c : Catalog) : List String :=
  c.projections.map (·.id)

/-- The projection with an id. -/
def get? (c : Catalog) (id : String) : Option Projection :=
  c.projections.find? fun p => p.id == id

end Catalog

end TreeReduction
