import TreeReduction.Digest
import TreeReduction.Json.Writer
import TreeReduction.Value

set_option autoImplicit false

/-!
# Canonical text

The one text of a value: JSON without blanks, the entries of a map in key order, numbers in their
shortest form. `Value.digest` is the hash of that text and the identity of the value, so
two values count as equal when their canonical texts have one digest.
-/

namespace TreeReduction.Value

mutual

/-- Appends the canonical text of a value. -/
def write (out : String) : Value → String
  | .null => out ++ "null"
  | .bool b => out ++ (if b then "true" else "false")
  | .int n => out ++ toString n.toInt
  | .float x => out ++ x.text
  | .str s => Json.writeString out s
  | .list items => (writeItems (out.push '[') true items).push ']'
  | .map entries => (writeEntries (out.push '\x7b') true entries).push '\x7d'

/-- Appends items, a comma before all but the first. -/
def writeItems (out : String) (first : Bool) : List Value → String
  | [] => out
  | item :: rest => writeItems (write (if first then out else out.push ',') item) false rest

/-- Appends entries, a comma before all but the first. -/
def writeEntries (out : String) (first : Bool) : List (String × Value) → String
  | [] => out
  | (key, value) :: rest =>
    writeEntries
      (write ((Json.writeString (if first then out else out.push ',') key).push ':') value)
      false rest

end

/-- The canonical text. -/
def canonical (v : Value) : String :=
  write "" v

/-- The digest of the canonical text. -/
def digest (v : Value) : Digest :=
  Digest.ofText v.canonical

/-- Values are equal when their digests are. -/
instance : BEq Value where
  beq a b := a.digest == b.digest

end TreeReduction.Value
