import TreeReduction.Digest
import TreeReduction.Json.Writer

set_option autoImplicit false

/-!
# Traces

The record of a run: one event for each attempted step, with the digests of the values before and
after it. A trace is written as lines of JSON, one for each event with its members always in one
order; the digest of that text is the checksum of the trace. Its binary form is in `Trace.Binary`.
-/

namespace TreeReduction

/-- An attempted step. -/
structure TraceEvent where
  /-- the place in the run, counted from zero -/
  index : Nat
  /-- the digest of the value that the step was taken from -/
  before : Digest
  /-- the digest of the value after it, the same where nothing changed -/
  after : Digest
  /-- the projection that fired -/
  projection : Option String
  deriving DecidableEq

/-- Attempted steps in order. -/
abbrev Trace : Type := List TraceEvent

/-- The line of an event as a document. -/
def TraceEvent.toJson (e : TraceEvent) : Json :=
  .object [("v", .nat 1), ("type", .str "kernel.step"), ("i", .nat e.index),
    ("before", .str e.before.hex), ("after", .str e.after.hex),
    ("projection", .ofOption e.projection)]

namespace Trace

/-- The lines of a trace. -/
def lines (t : Trace) : String :=
  t.foldl (fun out e => (Json.write out e.toJson).push '\n') ""

/-- The checksum of a trace: the digest of its lines. -/
def checksum (t : Trace) : Digest :=
  Digest.ofText (lines t)

end Trace

end TreeReduction
