import TreeReduction.Linked

set_option autoImplicit false

/-!
# Matching

A pattern matches a value that it embeds into. A scalar matches the identical scalar. A variable
site matches anything; the first site of a name binds it and later ones match without a comparison.
A sequence matches one of the same length, item by item. A dictionary matches one that has all its
keys, entry by entry, and the value may have more. Both sides are seen through their spelling.

Where that comparison of two maps fails, an ordinary pattern with at least one key may also match
the keys of the map as they are spelled, which lets it take a chain apart by `head` and `tail`.
-/

namespace TreeReduction

/-- What the names of a pattern are bound to, in the order of the names. -/
abbrev Bindings : Type := Entries Value

/-- Binds a name unless it is bound already. -/
def Bindings.bindFirst (bindings : Bindings) (name : String) (v : Value) : Bindings :=
  if Entries.contains bindings name then bindings else Entries.insert name v bindings

namespace Matching

/-- Every value of `patterns` beside what `values` hold under its key, if they hold them all. -/
def entryPairs? (patterns values : List (String × Value)) : Option (List (Value × Value)) :=
  patterns.mapM fun p => (Entries.get? values p.1).map (p.2, ·)

/-- The children to compare when both sides are seen through their spelling. -/
def viewPairs? (pattern value : Value) : Option (List (Value × Value)) :=
  match pattern.view, value.view with
  | .sequence patterns, .sequence values =>
    if patterns.length = values.length then some (patterns.zip values) else none
  | .dictionary patterns, .dictionary values => entryPairs? patterns values
  | _, _ => none

/-- The children to compare when two maps are taken as they are spelled. -/
def spelledPairs? (pattern value : Value) : Option (List (Value × Value)) :=
  match pattern, value with
  | .map patterns, .map values =>
    if patterns.isEmpty ∨ pattern.shape ≠ .map then none else entryPairs? patterns values
  | _, _ => none

/-- The children to compare, if the two containers agree. -/
def pairs? (pattern value : Value) : Option (List (Value × Value)) :=
  match viewPairs? pattern value with
  | some pairs => some pairs
  | none => spelledPairs? pattern value

/-- Extends bindings so that the pattern matches. Containers may nest `room` deep below this one. -/
def extend (room : Nat) (pattern value : Value) (bindings : Bindings) : Option Bindings :=
  if pattern.isScalar then
    if pattern.sameScalar value then some bindings else none
  else
    match pattern.variableName? with
    | some name => some (bindings.bindFirst name value)
    | none =>
      match pairs? pattern value, room with
      | none, _ => none
      | some [], _ => some bindings
      | some (_ :: _), 0 => none
      | some pairs, room + 1 => pairs.foldlM (fun b p => extend room p.1 p.2 b) bindings

end Matching

/-- The bindings under which a pattern matches a value, if it does. Nothing below the given depth is
compared, and so nothing that goes deeper matches. -/
def Value.match? (maxDepth : Nat) (pattern value : Value) : Option Bindings :=
  Matching.extend maxDepth pattern value []

end TreeReduction
