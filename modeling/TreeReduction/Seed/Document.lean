import TreeReduction.Projection
import TreeReduction.Seed.Schema
import TreeReduction.Value.Canonical
import TreeReduction.Value.Document

set_option autoImplicit false

/-!
# Seed documents

A seed is a JSON document that holds projections, a description of them and a checksum.
`Seed.Document.parse` reads one and looks at its schema mark; `Seed.Document.projections` makes its
entries projections; `Seed.checksumOf` is the digest of the canonical text of the description and
the projections, which does not depend on how the document is laid out.
-/

namespace TreeReduction.Seed

/-- The description of a seed. -/
structure Meta where
  schema : String := ""
  name : String := ""
  version : String := ""
  description : String := ""
  expectedIds : List String := []
  fallback : Option String := none
  deriving DecidableEq

/-- A projection as a seed writes it. -/
structure Entry where
  id : String := ""
  pattern : Json := .null
  body : Json := .null

/-- A seed as it is written. -/
structure Document where
  info : Meta := {}
  entries : List Entry := []
  checksum : Option String := none

/-- Why a seed was refused. -/
inductive Fault where
  /-- the file cannot be read -/
  | unreadable (cause : String)
  /-- the text is not JSON -/
  | notJson
  /-- the document does not fit the schema -/
  | schema (fault : SchemaFault)
  /-- the schema mark is of another format -/
  | unsupportedSchema (schema : String)
  /-- an entry is no projection -/
  | invalidProjection (id : String) (violation : Violation)
  /-- the projections do not make a catalog -/
  | invalidCatalog (violation : Violation)
  /-- a checksum is not that of the seed -/
  | checksumMismatch (expected actual : String)
  /-- ids that should be there are not -/
  | missingProjections (ids : List String)
  /-- the fallback does not come last -/
  | fallbackNotLast (fallback last : String)

/-- The wording of a fault. -/
def Fault.message : Fault → String
  | .unreadable cause => s!"I/O error: {cause}"
  | .notJson => "Malformed seed: <json>"
  | .schema fault => "Seed schema violation: " ++ fault.message
  | .unsupportedSchema mark => s!"Unsupported seed schema: {mark}"
  | .invalidProjection id violation => s!"Invalid projection {id}: {violation.message}"
  | .invalidCatalog violation => "Invalid projection set: " ++ violation.message
  | .checksumMismatch expected actual =>
    s!"Checksum mismatch: expected {expected}, computed {actual}"
  | .missingProjections ids => "Missing projections: " ++ Text.quotedList ids
  | .fallbackNotLast fallback last =>
    s!"Fallback projection {fallback} must be last, found {last}"

/-! ## Reading -/

/-- The fields of a description. -/
def metaSchema : Schema Meta where
  name := "SeedMeta"
  required := ["schema", "name", "version", "description", "expected_ids"]
  optional := ["fallback"]
  blank := {}
  read
    | "schema", json => (textOf json).map fun s r => { r with schema := s }
    | "name", json => (textOf json).map fun s r => { r with name := s }
    | "version", json => (textOf json).map fun s r => { r with version := s }
    | "description", json => (textOf json).map fun s r => { r with description := s }
    | "expected_ids", json => (listOf textOf json).map fun ids r => { r with expectedIds := ids }
    | _, json => (optionalTextOf json).map fun s r => { r with fallback := s }

/-- The fields of an entry; its pattern and body may be any document. -/
def entrySchema : Schema Entry where
  name := "SeedEntry"
  required := ["id", "pattern", "body"]
  optional := []
  blank := {}
  read
    | "id", json => (textOf json).map fun s r => { r with id := s }
    | "pattern", json => .ok fun r => { r with pattern := json }
    | _, json => .ok fun r => { r with body := json }

/-- The fields of a seed. -/
def documentSchema : Schema Document where
  name := "SeedDocument"
  required := ["meta", "projections"]
  optional := ["checksum"]
  blank := {}
  read
    | "meta", json => (metaSchema.decode json).map fun m r => { r with info := m }
    | "projections", json =>
      (listOf entrySchema.decode json).map fun entries r => { r with entries := entries }
    | _, json => (optionalTextOf json).map fun s r => { r with checksum := s }

/-- The schema mark of the seeds that are read. -/
def schemaMark : String := "mured.seed/v1"

namespace Document

/-- Reads a seed and looks at its schema mark. -/
def parse (source : String) : Except Fault Document :=
  match Json.parse? source with
  | none => .error .notJson
  | some json =>
    match documentSchema.decode json.settled with
    | .error fault => .error (.schema fault)
    | .ok d =>
      if d.info.schema = schemaMark then .ok d else .error (.unsupportedSchema d.info.schema)

end Document

/-- The projection of an entry, within limits. -/
def Entry.projection (limits : Limits) (e : Entry) : Except Violation Projection :=
  match Value.ofJson limits e.pattern with
  | .error v => .error v
  | .ok pattern =>
    match Value.ofJson limits e.body with
    | .error v => .error v
    | .ok body =>
      let p : Projection := ⟨e.id, pattern, body⟩
      (p.check limits).map fun _ => p

/-- The projections of entries, one after the other. -/
def projectionsOf (limits : Limits) : List Entry → Except Fault (List Projection)
  | [] => .ok []
  | e :: rest =>
    match e.projection limits with
    | .error v => .error (.invalidProjection e.id v)
    | .ok p => (projectionsOf limits rest).map (p :: ·)

namespace Document

/-- The projections of a seed in order. -/
def projections (d : Document) (limits : Limits) : Except Fault (List Projection) :=
  projectionsOf limits d.entries

end Document

/-! ## Checksum and writing -/

namespace Meta

/-- The ending of an id that marks a fallback. -/
def fallbackEnding : String := ".wrap"

/-- The fallback: the one that is named, or the first expected id with the right ending. -/
def fallbackId? (m : Meta) : Option String :=
  match m.fallback with
  | some id => some id
  | none => m.expectedIds.find? fun id => fallbackEnding.toList.isSuffixOf id.toList

/-- A description as a value. -/
def toValue (m : Meta) : Value :=
  let ids := ("expected_ids", Value.list (m.expectedIds.map .str))
  let rest := [("name", Value.str m.name), ("schema", .str m.schema), ("version", .str m.version)]
  match m.fallback with
  | some id => .map (("description", .str m.description) :: ids :: ("fallback", .str id) :: rest)
  | none => .map (("description", .str m.description) :: ids :: rest)

/-- A description as a document. -/
def toJson (m : Meta) : Json :=
  .object ([("schema", .str m.schema), ("name", .str m.name), ("version", .str m.version),
    ("description", .str m.description), ("expected_ids", .array (m.expectedIds.map .str))]
    ++ (m.fallback.map fun id => ("fallback", Json.str id)).toList)

end Meta

/-- The checksum of a seed with the given description and projections. -/
def checksumOf (m : Meta) (projections : List Projection) : String :=
  (Value.map [("meta", m.toValue),
    ("projections", .list (projections.map (·.toValue)))]).digest.hex

/-- An entry as a document. -/
def Entry.toJson (e : Entry) : Json :=
  .object [("id", .str e.id), ("pattern", e.pattern), ("body", e.body)]

/-- A seed as a document. -/
def Document.toJson (d : Document) : Json :=
  .object ([("meta", d.info.toJson), ("projections", .array (d.entries.map (·.toJson)))]
    ++ (d.checksum.map fun s => ("checksum", Json.str s)).toList)

end TreeReduction.Seed
