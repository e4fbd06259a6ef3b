import TreeReduction.Execution
import TreeReduction.Linked

set_option autoImplicit false

/-!
# Records

The JSON forms in which limits, shapes, stalls, halts, traces and events are kept. A variant is told
by a member that comes first, or by its only member, and a digest is an array of its 32 bytes. The
readers of these forms are in `Record.Reader`.
-/

namespace TreeReduction

/-- The form of limits. -/
def Limits.toRecord (l : Limits) : Json :=
  .object [("max_depth", .nat l.maxDepth), ("max_width", .nat l.maxWidth),
    ("allow_floats", .bool l.allowFloats)]

/-- The word for a shape. -/
def Shape.text : Shape → String
  | .atom => "atom"
  | .site => "variable"
  | .list => "list"
  | .map => "map"
  | .linkedList => "linked_list"
  | .linkedDict => "linked_dict"

/-- The form of a digest. -/
def Digest.toRecord (d : Digest) : Json :=
  .array (d.toList.map fun b => .nat b.toNat)

/-- The form of a stall. -/
def StallReason.toRecord : StallReason → Json
  | .noMatch => .object [("tag", .str "no_match")]
  | .unbound projection name =>
    .object [("tag", .str "unbound"), ("projection", .str projection), ("variable", .str name)]
  | .fixedPoint projection =>
    .object [("tag", .str "fixed_point"), ("projection", .str projection)]
  | .external pattern => .object [("tag", .str "external"), ("pattern", .str pattern)]

/-- The form of a halt. -/
def Halt.toRecord : Halt → Json
  | .stalled reason => .object [("stalled", reason.toRecord)]
  | .exhausted resource => .object [("exhausted", .str resource.text)]

/-- The members of the form of an attempted step. -/
def TraceEvent.members (e : TraceEvent) : List (String × Json) :=
  [("index", .nat e.index), ("before", e.before.toRecord), ("after", e.after.toRecord),
    ("projection", .ofOption e.projection)]

/-- The form of an attempted step. -/
def TraceEvent.toRecord (e : TraceEvent) : Json :=
  .object e.members

/-- The members of the form of evidence. -/
def Evidence.members (e : Evidence) : List (String × Json) :=
  [("value_hash", e.value.toRecord), ("pattern_id", .str e.pattern), ("reason", .str e.reason)]

/-- The form of evidence. -/
def Evidence.toRecord (e : Evidence) : Json :=
  .object e.members

/-- The word for a status, as records have it. -/
def Status.word : Status → String
  | .active => "active"
  | .stalled => "stalled"
  | .terminal => "terminal"

/-- The form of an event of an execution. -/
def Event.toRecord : Event → Json
  | .step event => .object (("type", .str "step") :: event.members)
  | .stall index value pattern =>
    .object [("type", .str "stall"), ("index", .nat index), ("value_hash", value.toRecord),
      ("pattern_id", .str pattern)]
  | .fix index before after =>
    .object [("type", .str "fix"), ("index", .nat index), ("before", before.toRecord),
      ("after", after.toRecord)]
  | .closure evidence => .object (("type", .str "closure") :: evidence.members)
  | .exhausted index resource =>
    .object [("type", .str "exhausted"), ("index", .nat index), ("resource", .str resource.text)]
  | .terminal value => .object [("type", .str "terminal"), ("value_hash", value.toRecord)]

end TreeReduction
