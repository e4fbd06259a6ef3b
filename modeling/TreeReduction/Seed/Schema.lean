import TreeReduction.Json.Writer
import TreeReduction.Text.Quoted

set_option autoImplicit false

/-!
# Schemas

Reading a document as a record with named fields. From an object, fields are read in the order in
which its members stand, and a name that is no field is refused where it stands; only then is a
missing field noticed. From an array, the fields are read in their own order, and its length is
looked at afterwards.
-/

namespace TreeReduction.Seed

/-- Why a document does not fit its schema. -/
inductive SchemaFault where
  /-- a required field is missing -/
  | missingField (name : String)
  /-- a member is no field -/
  | unknownField (name : String) (fields : List String)
  /-- a document of the wrong kind -/
  | wrongType (found : Json) (expected : String)
  /-- an array ends before the required fields do -/
  | tooShort (length : Nat) (record : String) (size : Nat)
  /-- an array goes on after the last field -/
  | tooLong (length : Nat)

/-- How a document that should be of another kind is shown. -/
def shown : Json → String
  | .null => "null"
  | .bool b => s!"boolean {quote}{b}{quote}"
  | .number (.integer n) => s!"integer {quote}{n}{quote}"
  | .number (.float x) => s!"floating point {quote}{x.text}{quote}"
  | .str s => "string " ++ Text.quoted s
  | .array _ => "sequence"
  | .object _ => "map"
where
  /-- The mark around names and values. -/
  quote : Char := '\x60'

/-- A name between marks. -/
def marked (name : String) : String :=
  s!"{shown.quote}{name}{shown.quote}"

/-- The wording of a fault. -/
def SchemaFault.message : SchemaFault → String
  | .missingField name => s!"missing field {marked name}"
  | .unknownField name fields =>
    s!"unknown field {marked name}, expected one of " ++ ", ".intercalate (fields.map marked)
  | .wrongType found expected => s!"invalid type: {shown found}, expected {expected}"
  | .tooShort length record size =>
    s!"invalid length {length}, expected struct {record} with {size} elements"
  | .tooLong length => s!"invalid length {length}, expected fewer elements in array"

/-- The fields of a record, the optional ones last, and how each is read into it. -/
structure Schema (α : Type) where
  name : String
  required : List String
  optional : List String
  /-- a record in which no field was read yet -/
  blank : α
  /-- reads one field -/
  read : String → Json → Except SchemaFault (α → α)

namespace Schema

variable {α : Type}

/-- All fields in order. -/
def fields (s : Schema α) : List String :=
  s.required ++ s.optional

/-- Reads fields that stand beside their documents, one after the other. -/
def readAll (s : Schema α) : List (String × Json) → α → Except SchemaFault α
  | [], record => .ok record
  | (name, json) :: rest, record =>
    if s.fields.contains name then
      match s.read name json with
      | .error e => .error e
      | .ok put => readAll s rest (put record)
    else .error (.unknownField name s.fields)

/-- Reads a document as a record. -/
def decode (s : Schema α) : Json → Except SchemaFault α
  | .object members =>
    match s.readAll members s.blank with
    | .error e => .error e
    | .ok record =>
      match s.required.find? fun name => !(members.any fun m => m.1 == name) with
      | some name => .error (.missingField name)
      | none => .ok record
  | .array items =>
    match s.readAll (s.fields.zip items) s.blank with
    | .error e => .error e
    | .ok record =>
      if items.length < s.required.length then
        .error (.tooShort items.length s.name s.fields.length)
      else if s.fields.length < items.length then .error (.tooLong items.length)
      else .ok record
  | json => .error (.wrongType json ("struct " ++ s.name))

end Schema

/-- Reads a text. -/
def textOf : Json → Except SchemaFault String
  | .str s => .ok s
  | json => .error (.wrongType json "a string")

/-- Reads a text or `null`. -/
def optionalTextOf : Json → Except SchemaFault (Option String)
  | .null => .ok none
  | json => (textOf json).map some

/-- Reads an array, its items one after the other. -/
def listOf {α : Type} (read : Json → Except SchemaFault α) : Json → Except SchemaFault (List α)
  | .array items => items.mapM read
  | json => .error (.wrongType json "a sequence")

end TreeReduction.Seed
