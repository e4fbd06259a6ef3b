import TreeReduction.Text.Quoted

set_option autoImplicit false

/-!
# Violations

Why a value, a graph of nodes or a projection is not admitted. Every violation is found before any
matching is attempted.
-/

namespace TreeReduction

/-- A broken rule of admission. -/
inductive Violation where
  /-- the text is not JSON -/
  | notJson
  /-- an integer that no signed word of 64 bits holds -/
  | integerOutOfRange (n : Int)
  /-- a node that should hold a list holds something else -/
  | notListNode (node : Nat)
  /-- a node that should hold a map holds something else -/
  | notMapNode (node : Nat)
  /-- a leaf should be a scalar -/
  | notScalarLeaf (kind : String)
  /-- nested deeper than the limit -/
  | depthExceeded (depth limit : Nat)
  /-- a list or map wider than the limit -/
  | widthExceeded (width limit : Nat)
  /-- a graph unfolds to too many nodes -/
  | tooLarge (limit : Nat)
  /-- a node lies below itself -/
  | cycle (node : Nat)
  /-- a reference to no node -/
  | dangling (node : Nat)
  /-- a map node was given a key twice -/
  | duplicateKey (key : String)
  /-- a NaN or an infinity -/
  | nonFiniteFloat
  /-- a floating-point number where none is allowed -/
  | floatNotPermitted
  /-- a control key in data of the caller -/
  | reservedKey (key : String)
  /-- a variable site without a name -/
  | emptyVariableName
  /-- a projection id that is empty, padded or looks like a control id -/
  | invalidProjectionId (id : String)
  /-- two projections of one catalog share an id -/
  | duplicateProjectionId (id : String)
  /-- more projections than a catalog holds -/
  | tooManyProjections (count limit : Nat)
  deriving DecidableEq

/-- The wording of a violation. -/
def Violation.message : Violation → String
  | .notJson => "Malformed value: <json>"
  | .integerOutOfRange n => s!"Malformed value: integer {n} out of range"
  | .notListNode node => s!"Malformed value: arena node {node} is not a list"
  | .notMapNode node => s!"Malformed value: arena node {node} is not a map"
  | .notScalarLeaf kind => s!"Malformed value: arena leaf must be a scalar, got {kind}"
  | .depthExceeded depth limit => s!"Depth {depth} exceeds limit {limit}"
  | .widthExceeded width limit => s!"Width {width} exceeds limit {limit}"
  | .tooLarge limit => s!"Value expands to more than {limit} nodes"
  | .cycle node => s!"Cycle detected at arena node {node}"
  | .dangling node => s!"Dangling arena reference {node}"
  | .duplicateKey key => s!"Duplicate map key: {key}"
  | .nonFiniteFloat => "Non-finite float"
  | .floatNotPermitted => "Floating-point values are not permitted"
  | .reservedKey key => s!"Reserved control field in caller data: {key}"
  | .emptyVariableName => "Variable site with empty name"
  | .invalidProjectionId id => "Invalid projection id: " ++ Text.quoted id
  | .duplicateProjectionId id => s!"Duplicate projection id: {id}"
  | .tooManyProjections count limit => s!"Projection count {count} exceeds limit {limit}"

end TreeReduction
