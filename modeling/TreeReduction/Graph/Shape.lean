import TreeReduction.Graph
import TreeReduction.Linked

set_option autoImplicit false

/-!
# Shapes in a graph

The shape of the tree below a node, told from the graph itself, so that a graph with cycles has one
too. A chain of tails that comes back to one of its maps never ends; it encodes nothing, and its
first map is an ordinary map.
-/

namespace TreeReduction.Graph

/-- The child of a map under a key. -/
def child? (g : Graph) (i : Nat) (key : String) : Option Nat :=
  match g.node? i with
  | some (.map entries) => (entries.find? fun p => p.1 == key).map (·.2)
  | _ => none

/-- The text of a leaf. -/
def text? (g : Graph) (i : Nat) : Option String :=
  match g.node? i with
  | some (.leaf value) => value.text?
  | _ => none

/-- Whether a node is the leaf `null`. -/
def isNull (g : Graph) (i : Nat) : Bool :=
  match g.node? i with
  | some (.leaf .null) => true
  | _ => false

/-- The number of keys of a map. -/
def keyCount? (g : Graph) (i : Nat) : Option Nat :=
  match g.node? i with
  | some (.map entries) => some entries.length
  | _ => none

/-- The heads of the chain that starts at a map and goes through maps of two keys to `null`. A
chain of more than `room` maps is given up. -/
def chainHeads? (g : Graph) : (room : Nat) → (i : Nat) → Option (List Nat)
  | 0, _ => none
  | room + 1, i => do
    let head ← g.child? i Linked.headKey
    let tail ← g.child? i Linked.tailKey
    if g.isNull tail then some [head]
    else if g.keyCount? tail = some 2 then (chainHeads? g room tail).map (head :: ·)
    else none

/-- The key that a chain of two spells before its value. -/
def pairKey? (g : Graph) (i : Nat) : Option String := do
  let key ← (← g.child? i Linked.headKey) |> g.text?
  let rest ← g.child? i Linked.tailKey
  let _ ← g.child? rest Linked.headKey
  let last ← g.child? rest Linked.tailKey
  if g.keyCount? i = some 2 ∧ g.keyCount? rest = some 2 ∧ g.isNull last then some key else none

/-- The shape of a tagged map, given the heads of its chain. -/
def taggedShape (g : Graph) (tag : String) (heads : List Nat) : Shape :=
  if tag = Linked.listTag then .linkedList
  else if tag = Linked.dictTag then
    match heads.mapM g.pairKey? with
    | some keys => if keys.Nodup then .linkedDict else .map
    | none => .map
  else .map

/-- The shape of a map of `count` keys. -/
def mapShape (g : Graph) (i count : Nat) : Shape :=
  if count = 1 ∧ ((g.child? i Value.variableKey).bind g.text?).isSome then .site
  else
    match (g.child? i Linked.typeKey).bind g.text?, count with
    | some tag, 1 => g.taggedShape tag []
    | some tag, 3 =>
      match g.chainHeads? (g.size + 1) i with
      | some heads => g.taggedShape tag heads
      | none => .map
    | _, _ => .map

/-- The shape of a node. -/
def shape (g : Graph) (i : Nat) : Shape :=
  match g.node? i with
  | some (.list _) => .list
  | some (.map entries) => g.mapShape i entries.length
  | _ => .atom

end TreeReduction.Graph
