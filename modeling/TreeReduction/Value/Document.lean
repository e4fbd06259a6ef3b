import TreeReduction.Json.Reader
import TreeReduction.Value.Limits

set_option autoImplicit false

/-!
# Values and JSON documents

`Value.ofJson` reads a value out of a document and checks the limits on the way, from the root down
and first children first; `Value.toJson` is the document of a value. A document holds numbers that a
value does not: an integer above the signed range is refused.
-/

namespace TreeReduction

namespace Json

mutual

/-- The document with the members of every object in key order, the last of each name. -/
def settled : Json → Json
  | .array items => .array (settledItems items)
  | .object members => .object (Entries.ofList (settledMembers members))
  | json => json

/-- Every item settled. -/
def settledItems : List Json → List Json
  | [] => []
  | item :: rest => item.settled :: settledItems rest

/-- The value of every member settled. -/
def settledMembers : List (String × Json) → List (String × Json)
  | [] => []
  | (name, value) :: rest => (name, value.settled) :: settledMembers rest

end

end Json

namespace Value

/-- The value of a number. -/
def ofNumber (limits : Limits) : Json.Number → Except Violation Value
  | .integer n =>
    if -0x8000000000000000 ≤ n ∧ n < 0x8000000000000000 then .ok (.int (Int64.ofInt n))
    else .error (.integerOutOfRange n)
  | .float x =>
    match limits.checkFloat x with
    | .error e => .error e
    | .ok _ => .ok (.float x)

mutual

/-- Reads a settled document whose root lies `level` deep. -/
def ofSettled (limits : Limits) (level : Nat) : Json → Except Violation Value
  | .null => .ok .null
  | .bool b => .ok (.bool b)
  | .number n => ofNumber limits n
  | .str s => .ok (.str s)
  | .array items =>
    match limits.checkContainer level items.length with
    | .error e => .error e
    | .ok _ => (ofItems limits (level + 1) items).map .list
  | .object members =>
    match limits.checkContainer level members.length with
    | .error e => .error e
    | .ok _ => (ofMembers limits (level + 1) members).map .map

/-- Reads items, the first first. -/
def ofItems (limits : Limits) (level : Nat) : List Json → Except Violation (List Value)
  | [] => .ok []
  | item :: rest =>
    match ofSettled limits level item with
    | .error e => .error e
    | .ok v => (ofItems limits level rest).map (v :: ·)

/-- Reads members, the first first. -/
def ofMembers (limits : Limits) (level : Nat) :
    List (String × Json) → Except Violation (List (String × Value))
  | [] => .ok []
  | (name, item) :: rest =>
    match ofSettled limits level item with
    | .error e => .error e
    | .ok v => (ofMembers limits level rest).map ((name, v) :: ·)

end

/-- The value of a document, within limits. -/
def ofJson (limits : Limits) (json : Json) : Except Violation Value :=
  ofSettled limits 0 json.settled

/-- The value that a JSON text spells, within limits. -/
def parse (limits : Limits) (text : String) : Except Violation Value :=
  match Json.parse? text with
  | none => .error .notJson
  | some json => ofJson limits json

mutual

/-- The document of a value; JSON has no infinities and no NaN, so `null` stands for them. -/
def toJson : Value → Json
  | .null => .null
  | .bool b => .bool b
  | .int n => .number (.integer n.toInt)
  | .float x => if x.isFinite then .number (.float x) else .null
  | .str s => .str s
  | .list items => .array (toJsonItems items)
  | .map entries => .object (toJsonMembers entries)

/-- The documents of items. -/
def toJsonItems : List Value → List Json
  | [] => []
  | item :: rest => item.toJson :: toJsonItems rest

/-- The members for the entries of a map. -/
def toJsonMembers : List (String × Value) → List (String × Json)
  | [] => []
  | (key, value) :: rest => (key, value.toJson) :: toJsonMembers rest

end

end Value

end TreeReduction
