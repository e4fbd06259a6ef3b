import TreeReduction.Record
import TreeReduction.Seed.Loader
import TreeReduction.Trace
import TreeReduction.Value.Document

set_option autoImplicit false

/-!
# Reports

What commands print. Each report has a plain form for people, in lines, and a JSON form with its
members in order of their names, spread over lines. Both end with a line feed.
-/

namespace TreeReduction.Report

/-- Lines, each with its end. -/
def ofLines (lines : List String) : String :=
  String.join (lines.map (· ++ "\n"))

/-- A document with its members in order, spread over lines. -/
def ofJson (json : Json) : String :=
  json.settled.pretty ++ "\n"

/-! ## Seeds -/

/-- A number that takes up three places at least. -/
def threePlaces (n : Nat) : String :=
  let digits := toString n
  "".pushn ' ' (3 - digits.length) ++ digits

/-- The lines that number ids, beginning with `first`. -/
def numbered : (first : Nat) → List String → List String
  | _, [] => []
  | first, id :: rest => s!"  {threePlaces first}. {id}" :: numbered (first + 1) rest

/-- What a seed holds, in lines. -/
def seedLines (s : Seed) : String :=
  ofLines ([
    "Seed Verified",
    "=============",
    s!"Name:     {s.name}",
    s!"Version:  {s.version}",
    s!"Checksum: {s.checksum}",
    "",
    s!"Projections ({s.catalog.size}, in order):"] ++ numbered 1 s.catalog.ids)

/-- What the seed at a path holds, in JSON. -/
def seedJson (path : String) (s : Seed) : String :=
  ofJson (.object [
    ("seed", .str path),
    ("name", .str s.name),
    ("version", .str s.version),
    ("checksum", .str s.checksum),
    ("projections", .array (s.catalog.ids.map .str))])

/-! ## Steps -/

/-- What a step from `v` came to: the value after it, the projection that matched and why there is
no new value. A projection whose instance is no new value is named only if the instance is out of
bounds. -/
structure StepResult where
  value : Value
  projection : Option String
  stall : Option String

/-- The result of a step from `v`. -/
def StepResult.of (v : Value) : Outcome → StepResult
  | .reduced projection next _ => ⟨next, some projection, none⟩
  | .stalled reason => ⟨v, none, some reason.text⟩
  | .exhausted resource projection =>
    ⟨v, some projection, some s!"result exceeds {resource.text}"⟩

/-- The result of a step, in lines. -/
def stepLines (r : StepResult) : String :=
  ofLines (r.value.canonical ::
    match r.projection, r.stall with
    | _, some stall => [s!"stalled: {stall}"]
    | some projection, none => [s!"fired: {projection}"]
    | none, none => [])

/-- The result of a step, in JSON. -/
def stepJson (r : StepResult) : String :=
  ofJson (.object [
    ("value", r.value.toJson),
    ("hash", .str r.value.digest.hex),
    ("projection", .ofOption r.projection),
    ("stalled", .ofOption r.stall)])

/-! ## Runs -/

/-- Evidence, in lines. -/
def evidenceLines : List Evidence → List String
  | [] => ["Evidence:       none"]
  | evidence =>
    "Evidence:" :: evidence.map fun e => s!"  {e.pattern} at {e.value.hex} ({e.reason})"

/-- The line that tells of events that were not recorded. -/
def droppedLines : (dropped : Nat) → List String
  | 0 => []
  | dropped => [s!"Trace:          truncated ({dropped} events dropped)"]

/-- How an execution halted, in lines. -/
def runLines (halt : Halt) (e : Execution) : String :=
  ofLines ([
    e.value.canonical,
    "",
    s!"Halt:           {halt.text}",
    s!"Steps:          {e.steps}",
    s!"Trace checksum: {(Trace.checksum e.trace).hex}"]
    ++ droppedLines e.dropped ++ evidenceLines e.evidence.toList)

/-- How an execution halted, in JSON. -/
def runJson (halt : Halt) (e : Execution) : String :=
  ofJson (.object [
    ("value", e.value.toJson),
    ("hash", .str e.digest.hex),
    ("steps", .nat e.steps),
    ("stalled", .bool halt.isStalled),
    ("halt", halt.toRecord),
    ("trace_checksum", .str (Trace.checksum e.trace).hex),
    ("trace_truncated", .bool (0 < e.dropped)),
    ("evidence", .array (e.evidence.toList.map (·.toRecord)))])

/-! ## Values -/

/-- The name of a shape in the plain form. -/
def shapeName : Shape → String
  | .atom => "Atom"
  | .site => "Variable"
  | .list => "List"
  | .map => "Map"
  | .linkedList => "LinkedList"
  | .linkedDict => "LinkedDict"

/-- A shape and a linked value, in lines. -/
def shapeLines (shape : Shape) (linked : Option Value) : String :=
  ofLines (s!"Shape: {shapeName shape}" ::
    (linked.map fun v => s!"Normalized: {v.canonical}").toList)

/-- A shape and a linked value, in JSON. -/
def shapeJson (shape : Shape) (linked : Option Value) : String :=
  ofJson (.object [
    ("shape", .str shape.text),
    ("normalized", (linked.map Value.toJson).getD .null)])

/-- The digest of a value, in JSON. -/
def digestJson (v : Value) : String :=
  ofJson (.object [("canonical", .str v.canonical), ("blake3_hash", .str v.digest.hex)])

end TreeReduction.Report
