import TreeReduction.Entries
import TreeReduction.Number.Binary64

set_option autoImplicit false

/-!
# Values

The trees that are reduced: scalars, lists and maps with text keys. The entries of a map stand in
ascending key order; `Value.ofEntries` builds a map from pairs in any order, and `Value.Ordered`
says that every map of a tree keeps the rule, which all functions of this library do.

A map with the single key `var` and a text under it is a *variable site*. In a pattern it stands for
any value, in a body for the value that was bound to its name.
-/

namespace TreeReduction

/-- A tree of scalars, lists and maps. -/
inductive Value where
  | null
  | bool (b : Bool)
  | int (n : Int64)
  | float (x : Binary64)
  | str (s : String)
  | list (items : List Value)
  | map (entries : List (String × Value))
  deriving Inhabited

namespace Value

/-- A map from pairs in any order; of several values of one key the last stays. -/
def ofEntries (pairs : List (String × Value)) : Value :=
  .map (Entries.ofList pairs)

mutual

/-- Every map of the tree has its keys in strictly ascending order. -/
def Ordered : Value → Prop
  | .list items => OrderedItems items
  | .map entries => Entries.Ordered entries ∧ OrderedEntries entries
  | _ => True

/-- Every item is an ordered tree. -/
def OrderedItems : List Value → Prop
  | [] => True
  | item :: rest => item.Ordered ∧ OrderedItems rest

/-- Every entry holds an ordered tree. -/
def OrderedEntries : List (String × Value) → Prop
  | [] => True
  | (_, value) :: rest => value.Ordered ∧ OrderedEntries rest

end

/-- The word for the kind of a value. -/
def kind : Value → String
  | .null => "null"
  | .bool _ => "bool"
  | .int _ => "int"
  | .float _ => "float"
  | .str _ => "string"
  | .list _ => "list"
  | .map _ => "map"

/-- Whether a value is neither a list nor a map. -/
def isScalar : Value → Bool
  | .list _ => false
  | .map _ => false
  | _ => true

/-- The text of a text value. -/
def text? : Value → Option String
  | .str s => some s
  | _ => none

/-- What a map holds under a key. -/
def get? : Value → String → Option Value
  | .map entries, key => Entries.get? entries key
  | _, _ => none

/-- Whether two scalars are identical, floating-point numbers by their bits. -/
def sameScalar : Value → Value → Bool
  | .null, .null => true
  | .bool a, .bool b => a == b
  | .int a, .int b => a == b
  | .float a, .float b => a == b
  | .str a, .str b => a == b
  | _, _ => false

/-! ## Variable sites -/

/-- The key of a variable site. -/
def variableKey : String := "var"

/-- The variable site with a name. -/
def site (name : String) : Value :=
  .map [(variableKey, .str name)]

/-- The name of the variable site that the entries of a map form, if they form one. -/
def siteName? : List (String × Value) → Option String
  | [(key, .str name)] => if key = variableKey then some name else none
  | _ => none

/-- The name of a variable site. -/
def variableName? : Value → Option String
  | .map entries => siteName? entries
  | _ => none

mutual

/-- The names of all variable sites in the order of the tree, repeats included. -/
def variableNames : Value → List String
  | .list items => variableNamesItems items
  | .map entries =>
    match siteName? entries with
    | some name => [name]
    | none => variableNamesEntries entries
  | _ => []

/-- The names in a list of values. -/
def variableNamesItems : List Value → List String
  | [] => []
  | item :: rest => item.variableNames ++ variableNamesItems rest

/-- The names in the entries of a map. -/
def variableNamesEntries : List (String × Value) → List String
  | [] => []
  | (_, value) :: rest => value.variableNames ++ variableNamesEntries rest

end

/-! ## Reserved keys -/

/-- The keys under which a reduction keeps its own state. Data that holds one of them, at any depth,
is refused, so that it cannot pass for that state. -/
def reservedKeys : List String :=
  ["_mode", "_step", "_projs", "_match", "_bindings"]

mutual

/-- A reserved key of the tree. A map is searched before what it holds, and later children before
earlier ones. -/
def reservedKey? : Value → Option String
  | .list items => reservedKeyItems? items
  | .map entries =>
    match entries.find? fun p => reservedKeys.contains p.1 with
    | some p => some p.1
    | none => reservedKeyEntries? entries
  | _ => none

/-- A reserved key of a list of values, the last first. -/
def reservedKeyItems? : List Value → Option String
  | [] => none
  | item :: rest =>
    match reservedKeyItems? rest with
    | some key => some key
    | none => item.reservedKey?

/-- A reserved key inside the values of a map, the last first. -/
def reservedKeyEntries? : List (String × Value) → Option String
  | [] => none
  | (_, value) :: rest =>
    match reservedKeyEntries? rest with
    | some key => some key
    | none => value.reservedKey?

end

end Value

end TreeReduction
