import TreeReduction.Matching

set_option autoImplicit false

/-!
# Instantiation

Fills the variable sites of a body with what their names are bound to. A bound value is put in as it
is, with any variable sites of its own. The first site without a binding, in the order of the tree,
makes the whole instantiation fail.
-/

namespace TreeReduction

/-- A variable that a body names and no binding knows. -/
structure UnboundVariable where
  name : String
  deriving DecidableEq

namespace Value

mutual

/-- Replaces every variable site by its binding. -/
def instantiate (bindings : Bindings) : Value → Except UnboundVariable Value
  | .list items => (instantiateItems bindings items).map .list
  | .map entries =>
    match siteName? entries with
    | some name =>
      match Entries.get? bindings name with
      | some bound => .ok bound
      | none => .error ⟨name⟩
    | none => (instantiateEntries bindings entries).map .map
  | v => .ok v

/-- Instantiates items, the first first. -/
def instantiateItems (bindings : Bindings) : List Value → Except UnboundVariable (List Value)
  | [] => .ok []
  | item :: rest =>
    match instantiate bindings item with
    | .error e => .error e
    | .ok v => (instantiateItems bindings rest).map (v :: ·)

/-- Instantiates the values of a map, the first first. -/
def instantiateEntries (bindings : Bindings) :
    List (String × Value) → Except UnboundVariable (List (String × Value))
  | [] => .ok []
  | (key, value) :: rest =>
    match instantiate bindings value with
    | .error e => .error e
    | .ok v => (instantiateEntries bindings rest).map ((key, v) :: ·)

end

end Value

end TreeReduction
