import TreeReduction.Graph

set_option autoImplicit false

/-!
# Unfolding a graph

The tree below a node: shared nodes are copied, lists keep their order and maps are put in key
order. A container that lies below itself is a cycle and has no tree. Limits are checked on the way
down, first children first, and no tree has more than `maxNodes` nodes, since a small graph with
shared nodes can stand for a very large one.

A path from the root holds each container once, so it is never longer than the graph has nodes; that
is what the recursion runs on.
-/

namespace TreeReduction.Graph

/-- The most nodes that a tree may have. -/
def maxNodes : Nat := 1000000

/-- Unfolds children in order. The count of nodes made so far goes from each to the next. -/
def unfoldEach (unfold : Nat → Nat → Except Violation (Value × Nat)) :
    List Nat → Nat → Except Violation (List Value × Nat)
  | [], count => .ok ([], count)
  | child :: rest, count =>
    match unfold child count with
    | .error e => .error e
    | .ok (v, count) => (unfoldEach unfold rest count).map fun r => (v :: r.1, r.2)

/-- Unfolds node `i`, which lies below the containers of `path`, when `count` nodes were made
before it. Answers the tree and the new count. -/
def unfoldFrom (g : Graph) (limits : Limits) :
    (room : Nat) → (path : List Nat) → (i count : Nat) → Except Violation (Value × Nat)
  | room, path, i, count =>
    if maxNodes < count + 1 then .error (.tooLarge maxNodes)
    else
      match g.node? i, room with
      | none, _ => .error (.dangling i)
      | some (.leaf value), _ => (value.check limits).map fun _ => (value, count + 1)
      | some _, 0 => .error (.cycle i)
      | some (.list children), room + 1 =>
        if path.contains i then .error (.cycle i)
        else
          match limits.checkContainer path.length children.length with
          | .error e => .error e
          | .ok _ =>
            (unfoldEach (unfoldFrom g limits room (i :: path)) children (count + 1)).map
              fun r => (.list r.1, r.2)
      | some (.map entries), room + 1 =>
        if path.contains i then .error (.cycle i)
        else
          match limits.checkContainer path.length entries.length with
          | .error e => .error e
          | .ok _ =>
            let sorted := Entries.ofList entries
            (unfoldEach (unfoldFrom g limits room (i :: path)) (Entries.values sorted)
              (count + 1)).map fun r => (.map ((Entries.keys sorted).zip r.1), r.2)

/-- The tree below a node, within limits. -/
def unfold (g : Graph) (limits : Limits) (root : Nat) : Except Violation Value :=
  (g.unfoldFrom limits (g.size + 1) [] root 0).map (·.1)

end TreeReduction.Graph
