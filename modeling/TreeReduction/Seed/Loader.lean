import TreeReduction.Catalog
import TreeReduction.Log
import TreeReduction.Seed.Document

set_option autoImplicit false

/-!
# Loading and sealing seeds

A loader makes a catalog of a seed that is intact. It checks, in this order, that the text is a
seed, that every entry is a projection, that they make a catalog, that the checksum is there and is
the one computed, that all expected ids are present and that the fallback comes last. Sealing a seed
checks as much as can be checked without a checksum and writes the document with the one it should
have.
-/

namespace TreeReduction

/-- A catalog and the seed that it comes from. -/
structure Seed where
  catalog : Catalog
  name : String
  version : String
  checksum : String

namespace Seed

/-- What a loader asks of seeds. -/
structure Loader where
  limits : Limits := {}
  /-- ids that have to be present whatever the seed expects -/
  requiredIds : List String := []
  /-- the checksum that a seed has to have whatever it declares -/
  pinned : Option String := none

/-- Whether two texts are equal up to the case of ASCII letters. -/
def sameIgnoringCase (a b : String) : Bool :=
  a.toList.map Char.toLower == b.toList.map Char.toLower

/-- Checks that the projections hold all ids that are asked for; those missing are named once each,
in order. -/
def checkPresent (ids : List String) (wanted : List String) : Except Fault Unit :=
  match Entries.keys (Entries.ofList ((wanted.filter fun id => !ids.contains id).map (·, ()))) with
  | [] => .ok ()
  | missing => .error (.missingProjections missing)

/-- Checks that the fallback, if there is one, is the last projection. -/
def checkFallback (ids : List String) : Option String → Except Fault Unit
  | none => .ok ()
  | some fallback =>
    let last := ids.getLast?.getD ""
    if last = fallback then .ok () else .error (.fallbackNotLast fallback last)

/-- Checks that every checksum asked for is the one computed. -/
def checkChecksums (actual : String) : List String → Except Fault Unit
  | [] => .ok ()
  | expected :: rest =>
    if sameIgnoringCase expected actual then checkChecksums actual rest
    else .error (.checksumMismatch expected actual)

/-- A seed read as far as it can be without a checksum: the document, its checksum as computed and
its catalog. -/
structure Draft where
  document : Document
  checksum : String
  catalog : Catalog

namespace Loader

/-- Reads a seed and makes a catalog of it. -/
def draft (l : Loader) (source : String) : Except Fault Draft :=
  match Document.parse source with
  | .error e => .error e
  | .ok document =>
    match document.projections l.limits with
    | .error e => .error e
    | .ok projections =>
      match Catalog.ofList l.limits projections with
      | .error v => .error (.invalidCatalog v)
      | .ok catalog => .ok ⟨document, checksumOf document.info projections, catalog⟩

/-- Loads a seed. -/
def load (l : Loader) (source : String) : Except Fault Seed := do
  let draft ← l.draft source
  let info := draft.document.info
  let ids := draft.catalog.ids
  let fallback := info.fallbackId?
  match draft.document.checksum with
  | none => .error (.schema (.missingField "checksum"))
  | some declared =>
    checkChecksums draft.checksum (declared :: l.pinned.toList)
    checkPresent ids (info.expectedIds ++ l.requiredIds ++ fallback.toList)
    checkFallback ids fallback
    return ⟨draft.catalog, info.name, info.version, draft.checksum⟩

/-- Seals a seed: its document with the checksum that it should declare. -/
def sealed (l : Loader) (source : String) : Except Fault String :=
  (l.draft source).map fun draft =>
    { draft.document with checksum := some draft.checksum }.toJson.pretty

end Loader

/-- The log of loading a seed. -/
def loadLog (least : Severity) (s : Seed) : Log :=
  Log.one least .info "seed loaded"
    [("seed", s.name), ("version", s.version), ("projections", toString s.catalog.size),
      ("checksum", s.checksum)]

end Seed

end TreeReduction
