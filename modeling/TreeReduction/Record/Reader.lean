import TreeReduction.Json.Part
import TreeReduction.Record

set_option autoImplicit false

/-!
# Reading records

The readers of the forms in `Record`. A record with named parts is read from an object, where no
part may be given twice and unknown members are passed over, or from an array that holds the parts
in order. An optional part may be left out of an object. A word for a variant may also stand as the
name of a single member that holds `null`; inside an event it may hold an empty object as well.

A record that is told by a tag is read whole before its tag is looked for. An attempted step and
evidence have none, and so a text of theirs is read in part.
-/

namespace TreeReduction.Record

/-- The member of that name, nothing if there is none; two of one name are an error. -/
def part? (members : List (String × Json)) (name : String) : Option (Option Json) :=
  match members.filter fun m => m.1 == name with
  | [] => some none
  | [m] => some (some m.2)
  | _ => none

/-- The parts of a record by name, or by their order in an array. -/
def parts? (names : List String) : Json → Option (List (Option Json))
  | .object members => names.mapM (part? members)
  | .array items => if items.length = names.length then some (items.map some) else none
  | _ => none

/-- A natural number below a bound. -/
def nat? (bound : Nat) : Json → Option Nat
  | .number (.integer n) => if 0 ≤ n ∧ n < bound then some n.toNat else none
  | _ => none

/-- A natural number of 64 bits. -/
def word? : Json → Option Nat :=
  nat? UInt64.size

/-- A truth value. -/
def bool? : Json → Option Bool
  | .bool b => some b
  | _ => none

/-- A text. -/
def text? : Json → Option String
  | .str s => some s
  | _ => none

/-- A text or `null`; a part that is left out counts as `null`. -/
def optionalText? : Option Json → Option (Option String)
  | none => some none
  | some .null => some none
  | some (.str s) => some (some s)
  | _ => none

/-- A digest. -/
def digest? : Json → Option Digest
  | .array items =>
    (items.mapM (nat? 256)).bind fun bytes => Digest.ofBytes? (bytes.map (·.toUInt8))
  | _ => none

/-- Whether a document is `null`. -/
def isNull : Json → Bool
  | .null => true
  | _ => false

/-- Whether a document holds nothing: `null` or an empty object. -/
def isEmpty : Json → Bool
  | .null => true
  | .object [] => true
  | _ => false

/-- The word that a form gives for a variant without parts; `filler` tells what may stand beside
it. -/
def variantWord? (filler : Json → Bool) : Json → Option String
  | .str s => some s
  | .object [(name, json)] => if filler json then some name else none
  | _ => none

/-- The variant that a word names. -/
def ofWord? {α : Type} (words : List (String × α)) (filler : Json → Bool) (json : Json) :
    Option α :=
  (variantWord? filler json).bind fun word => (words.find? fun p => p.1 == word).map (·.2)

/-! ## The forms -/

/-- Limits; parts that are left out have their usual values and unknown members are refused. -/
def limits? : Json → Option Limits
  | .object members =>
    if members.all fun m => ["max_depth", "max_width", "allow_floats"].contains m.1 then do
      let maxDepth ← part? members "max_depth"
      let maxWidth ← part? members "max_width"
      let allowFloats ← part? members "allow_floats"
      ofParts maxDepth maxWidth allowFloats
    else none
  | .array [] => ofParts none none none
  | .array [d] => ofParts d none none
  | .array [d, w] => ofParts d w none
  | .array [d, w, f] => ofParts d w f
  | _ => none
where
  /-- Limits from the parts that are given. -/
  ofParts (maxDepth maxWidth allowFloats : Option Json) : Option Limits := do
    let usual : Limits := {}
    let maxDepth ← (maxDepth.map word?).getD (some usual.maxDepth)
    let maxWidth ← (maxWidth.map word?).getD (some usual.maxWidth)
    let allowFloats ← (allowFloats.map bool?).getD (some usual.allowFloats)
    return { maxDepth, maxWidth, allowFloats }

/-- A shape. -/
def shape? : Json → Option Shape :=
  ofWord? [("atom", .atom), ("variable", .site), ("list", .list), ("map", .map),
    ("linked_list", .linkedList), ("linked_dict", .linkedDict)] isNull

/-- A resource. -/
def resource? (filler : Json → Bool) : Json → Option Resource :=
  ofWord? [("steps", .steps), ("depth", .depth), ("width", .width)] filler

/-- A status. -/
def status? : Json → Option Status :=
  ofWord? [("active", .active), ("stalled", .stalled), ("terminal", .terminal)] isNull

/-- The tag of a variant and its other parts, from an object with a member that holds the tag or
from an array that starts with it. -/
def tagged? (tagName : String) : Json → Option (String × Json)
  | .object members => do
    let tag ← (← part? members tagName).bind text?
    return (tag, .object (members.filter fun m => m.1 != tagName))
  | .array (.str tag :: rest) => some (tag, .array rest)
  | _ => none

/-- A stall. -/
def stallReason? (json : Json) : Option StallReason := do
  match ← tagged? "tag" json with
  | ("no_match", .object _) => return .noMatch
  | ("no_match", .array []) => return .noMatch
  | ("unbound", rest) =>
    let [some projection, some name] ← parts? ["projection", "variable"] rest | none
    return .unbound (← text? projection) (← text? name)
  | ("fixed_point", rest) =>
    let [some projection] ← parts? ["projection"] rest | none
    return .fixedPoint (← text? projection)
  | ("external", rest) =>
    let [some pattern] ← parts? ["pattern"] rest | none
    return .external (← text? pattern)
  | _ => none

/-- A halt. -/
def halt? : Json → Option Halt
  | .object [("stalled", reason)] => (stallReason? reason).map .stalled
  | .object [("exhausted", resource)] => (resource? isNull resource).map .exhausted
  | _ => none

/-- The names of the parts of an attempted step. -/
def traceEventParts : List String :=
  ["index", "before", "after", "projection"]

/-- An attempted step. -/
def traceEvent? (json : Json) : Option TraceEvent := do
  let [some index, some before, some after, projection] ← parts? traceEventParts json | none
  return ⟨← word? index, ← digest? before, ← digest? after, ← optionalText? projection⟩

/-- The attempted step that a text spells. -/
def parseTraceEvent? (text : String) : Option TraceEvent :=
  (Json.parsePart? traceEventParts.contains text).bind traceEvent?

/-- The names of the parts of evidence. -/
def evidenceParts : List String :=
  ["value_hash", "pattern_id", "reason"]

/-- Evidence. -/
def evidence? (json : Json) : Option Evidence := do
  let [some value, some pattern, some reason] ← parts? evidenceParts json | none
  return ⟨← digest? value, ← text? pattern, ← text? reason⟩

/-- The evidence that a text spells. -/
def parseEvidence? (text : String) : Option Evidence :=
  (Json.parsePart? evidenceParts.contains text).bind evidence?

/-- An event of an execution. -/
def event? (json : Json) : Option Event := do
  match ← tagged? "type" json with
  | ("step", rest) => return .step (← traceEvent? rest)
  | ("stall", rest) =>
    let [some index, some value, some pattern] ←
      parts? ["index", "value_hash", "pattern_id"] rest | none
    return .stall (← word? index) (← digest? value) (← text? pattern)
  | ("fix", rest) =>
    let [some index, some before, some after] ← parts? ["index", "before", "after"] rest | none
    return .fix (← word? index) (← digest? before) (← digest? after)
  | ("closure", rest) => return .closure (← evidence? rest)
  | ("exhausted", rest) =>
    let [some index, some resource] ← parts? ["index", "resource"] rest | none
    return .exhausted (← word? index) (← resource? isEmpty resource)
  | ("terminal", rest) =>
    let [some value] ← parts? ["value_hash"] rest | none
    return .terminal (← digest? value)
  | _ => none

end TreeReduction.Record
