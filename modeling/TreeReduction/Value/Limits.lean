import TreeReduction.Value
import TreeReduction.Violation

set_option autoImplicit false

/-!
# Limits

How deep and wide a value may be, and whether it may hold floating-point numbers. A scalar has depth
0 and a container is one deeper than its deepest child; width is the largest number of children of
one node.

`Value.check` goes through a tree from the root, later children before earlier ones, and reports the
first thing that breaks a limit, a container's own depth and width before its children.
-/

namespace TreeReduction

/-- Something that can run out. -/
inductive Resource where
  | steps
  | depth
  | width
  deriving DecidableEq

/-- The word for a resource. -/
def Resource.text : Resource → String
  | .steps => "steps"
  | .depth => "depth"
  | .width => "width"

/-- The bounds that a value has to keep. -/
structure Limits where
  maxDepth : Nat := 100
  maxWidth : Nat := 1024
  allowFloats : Bool := false
  deriving DecidableEq, Inhabited

/-- The size of a value. -/
structure Extent where
  depth : Nat
  width : Nat
  nodes : Nat
  deriving DecidableEq

namespace Value

mutual

/-- How deep containers nest. -/
def depth : Value → Nat
  | .list items => depthItems items + 1
  | .map entries => depthEntries entries + 1
  | _ => 0

/-- The depth of the deepest item. -/
def depthItems : List Value → Nat
  | [] => 0
  | item :: rest => max item.depth (depthItems rest)

/-- The depth of the deepest entry. -/
def depthEntries : List (String × Value) → Nat
  | [] => 0
  | (_, value) :: rest => max value.depth (depthEntries rest)

end

mutual

/-- The largest number of children of one node. -/
def width : Value → Nat
  | .list items => max items.length (widthItems items)
  | .map entries => max entries.length (widthEntries entries)
  | _ => 0

/-- The width of the widest item. -/
def widthItems : List Value → Nat
  | [] => 0
  | item :: rest => max item.width (widthItems rest)

/-- The width of the widest entry. -/
def widthEntries : List (String × Value) → Nat
  | [] => 0
  | (_, value) :: rest => max value.width (widthEntries rest)

end

mutual

/-- The number of nodes, scalars included. -/
def nodes : Value → Nat
  | .list items => nodesItems items + 1
  | .map entries => nodesEntries entries + 1
  | _ => 1

/-- The number of nodes of all items. -/
def nodesItems : List Value → Nat
  | [] => 0
  | item :: rest => item.nodes + nodesItems rest

/-- The number of nodes of all entries. -/
def nodesEntries : List (String × Value) → Nat
  | [] => 0
  | (_, value) :: rest => value.nodes + nodesEntries rest

end

/-- The size of a value. -/
def extent (v : Value) : Extent :=
  ⟨v.depth, v.width, v.nodes⟩

/-- The resource that a value overruns, depth before width. -/
def overrun? (v : Value) (limits : Limits) : Option Resource :=
  if limits.maxDepth < v.depth then some .depth
  else if limits.maxWidth < v.width then some .width
  else none

end Value

namespace Limits

/-- Checks a container that lies `level` deep and has `width` children. -/
def checkContainer (limits : Limits) (level width : Nat) : Except Violation Unit :=
  if limits.maxDepth < level + 1 then .error (.depthExceeded (level + 1) limits.maxDepth)
  else if limits.maxWidth < width then .error (.widthExceeded width limits.maxWidth)
  else .ok ()

/-- Checks a floating-point number. -/
def checkFloat (limits : Limits) (x : Binary64) : Except Violation Unit :=
  if !x.isFinite then .error .nonFiniteFloat
  else if !limits.allowFloats then .error .floatNotPermitted
  else .ok ()

end Limits

namespace Value

mutual

/-- Checks a tree whose root lies `level` deep. -/
def checkAt (limits : Limits) (level : Nat) : Value → Except Violation Unit
  | .float x => limits.checkFloat x
  | .list items =>
    match limits.checkContainer level items.length with
    | .error e => .error e
    | .ok _ => checkItems limits (level + 1) items
  | .map entries =>
    match limits.checkContainer level entries.length with
    | .error e => .error e
    | .ok _ => checkEntries limits (level + 1) entries
  | _ => .ok ()

/-- Checks items, the last first. -/
def checkItems (limits : Limits) (level : Nat) : List Value → Except Violation Unit
  | [] => .ok ()
  | item :: rest =>
    match checkItems limits level rest with
    | .error e => .error e
    | .ok _ => checkAt limits level item

/-- Checks the values of a map, the last first. -/
def checkEntries (limits : Limits) (level : Nat) : List (String × Value) → Except Violation Unit
  | [] => .ok ()
  | (_, value) :: rest =>
    match checkEntries limits level rest with
    | .error e => .error e
    | .ok _ => checkAt limits level value

end

/-- Checks a value against limits and reports the first violation. -/
def check (limits : Limits) (v : Value) : Except Violation Unit :=
  checkAt limits 0 v

/-- Refuses a value that holds a reserved key. -/
def refuseReserved (v : Value) : Except Violation Unit :=
  match v.reservedKey? with
  | some key => .error (.reservedKey key)
  | none => .ok ()

end Value

end TreeReduction
