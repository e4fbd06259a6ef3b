import TreeReduction.Number.Decimal

set_option autoImplicit false

/-!
# JSON documents

The tree of a JSON text. The members of an object stand in the order of the text, a name that is
given twice stands twice; a reader that wants the last of them asks `Json.member?`.
-/

namespace TreeReduction

/-- A JSON number: an integer that fits a word of 64 bits with or without a sign, or a finite
floating-point number. -/
inductive Json.Number where
  | integer (n : Int)
  | float (x : Binary64)
  deriving DecidableEq

/-- A JSON document. -/
inductive Json where
  | null
  | bool (b : Bool)
  | number (n : Json.Number)
  | str (s : String)
  | array (items : List Json)
  | object (members : List (String × Json))
  deriving Inhabited

namespace Json

/-- The text of a number. -/
def Number.text : Number → String
  | .integer n => toString n
  | .float x => x.text

/-- A natural number as a document. -/
def nat (n : Nat) : Json :=
  .number (.integer n)

/-- A text or nothing, as a document. -/
def ofOption : Option String → Json
  | some s => .str s
  | none => .null

/-- The value of a member; of several members with one name the last counts. -/
def member? (members : List (String × Json)) (name : String) : Option Json :=
  (members.reverse.find? fun m => m.1 == name).map (·.2)

end Json

end TreeReduction
