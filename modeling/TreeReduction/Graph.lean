import TreeReduction.Value.Limits

set_option autoImplicit false

/-!
# Graphs of nodes

Structure that arrives piece by piece: nodes that refer to each other by index. Nodes may be shared
and may lie below themselves; `Graph.unfold` makes a tree of what lies below one of them and
`Graph.shape` tells its shape.

A graph grows by `addLeaf`, `addList` and `addMap` and its containers by `push` and `insert`. These
answer a violation, and leave the graph alone, where a leaf is no scalar, a reference is to no node,
a node is of the wrong kind or a key is given twice.
-/

namespace TreeReduction

/-- A scalar, or a container of references to nodes. -/
inductive Node where
  | leaf (value : Value)
  | list (children : List Nat)
  | map (entries : List (String × Nat))

/-- Nodes by index. -/
structure Graph where
  nodes : Array Node := #[]

namespace Graph

/-- The number of nodes. -/
def size (g : Graph) : Nat :=
  g.nodes.size

/-- A node by its index. -/
def node? (g : Graph) (i : Nat) : Option Node :=
  g.nodes[i]?

/-- Adds a node; its index is the old size. -/
def add (g : Graph) (node : Node) : Nat × Graph :=
  (g.size, ⟨g.nodes.push node⟩)

/-- Adds a scalar. -/
def addLeaf (g : Graph) (value : Value) : Except Violation (Nat × Graph) :=
  if value.isScalar then .ok (g.add (.leaf value)) else .error (.notScalarLeaf value.kind)

/-- Adds an empty list. -/
def addList (g : Graph) : Nat × Graph :=
  g.add (.list [])

/-- Adds an empty map. -/
def addMap (g : Graph) : Nat × Graph :=
  g.add (.map [])

/-- Refuses a reference to no node. -/
def checkReference (g : Graph) (i : Nat) : Except Violation Unit :=
  if i < g.size then .ok () else .error (.dangling i)

/-- Appends a child to a list. -/
def push (g : Graph) (list child : Nat) : Except Violation Graph :=
  match g.checkReference child with
  | .error e => .error e
  | .ok _ =>
    match g.node? list with
    | some (.list children) => .ok ⟨g.nodes.setIfInBounds list (.list (children ++ [child]))⟩
    | some _ => .error (.notListNode list)
    | none => .error (.dangling list)

/-- Puts a child under a new key of a map. -/
def insert (g : Graph) (map : Nat) (key : String) (child : Nat) : Except Violation Graph :=
  match g.checkReference child with
  | .error e => .error e
  | .ok _ =>
    match g.node? map with
    | some (.map entries) =>
      if entries.any fun p => p.1 == key then .error (.duplicateKey key)
      else .ok ⟨g.nodes.setIfInBounds map (.map (entries ++ [(key, child)]))⟩
    | some _ => .error (.notMapNode map)
    | none => .error (.dangling map)

end Graph

end TreeReduction
