import TreeReduction.Kernel
import TreeReduction.Trace

set_option autoImplicit false

/-!
# Executions

A value that is reduced under the eyes of a caller. An execution is active until a step changes
nothing or the caller reports a stall; then it is stalled until the caller puts another value in its
place. A caller may also close it for good.

Every stall is remembered as the digest of the value under the pattern it is due to. A second stall
of one pattern at one value is *evidence* that the reduction is closed. The memory is cleared
whenever the value changes; evidence is only ever noted and never acted on.

What happens is recorded as events, up to a fixed number; later ones are only counted.
-/

namespace TreeReduction

/-- Where an execution stands. -/
inductive Status where
  | active
  | stalled
  | terminal
  deriving DecidableEq

/-- The word for a status. -/
def Status.text : Status → String
  | .active => "ACTIVE"
  | .stalled => "STALLED"
  | .terminal => "TERMINAL"

/-- A second stall of one pattern at one value. -/
structure Evidence where
  value : Digest
  pattern : String
  reason : String
  deriving DecidableEq

/-- The evidence that two stalls give. -/
def Evidence.ofSecondStall (value : Digest) (pattern : String) : Evidence :=
  ⟨value, pattern, "second_independent_stall"⟩

/-- Something that happened to an execution. -/
inductive Event where
  /-- a step that changed the value or nothing -/
  | step (event : TraceEvent)
  /-- a stall, after as many steps as the index says -/
  | stall (index : Nat) (value : Digest) (pattern : String)
  /-- the caller put another value in place -/
  | fix (index : Nat) (before after : Digest)
  /-- evidence of closure -/
  | closure (evidence : Evidence)
  /-- a resource ran out -/
  | exhausted (index : Nat) (resource : Resource)
  /-- the caller closed the execution -/
  | terminal (value : Digest)
  deriving DecidableEq

/-- Why an operation on an execution was refused. -/
inductive Refusal where
  /-- the execution does not stand where the operation needs it -/
  | wrongStatus (operation : String) (status : Status)
  /-- the value that the caller meant to replace is not the one in place -/
  | staleTarget (expected actual : Digest)
  /-- the new value is not admitted -/
  | notAdmitted (violation : Violation)
  deriving DecidableEq

/-- The wording of a refusal. -/
def Refusal.message : Refusal → String
  | .wrongStatus operation status => s!"Cannot {operation} while {status.text}"
  | .staleTarget expected actual =>
    "Fix targets " ++ expected.label ++ " but current value is " ++ actual.label
  | .notAdmitted violation => violation.message

/-- What a step of an execution did. -/
inductive Transition where
  | reduced (projection : String)
  | stalled (reason : StallReason) (evidence : Option Evidence)
  | exhausted (resource : Resource) (projection : String)

/-- A value that is being reduced, and what happened to it. -/
structure Execution where
  kernel : Kernel
  value : Value
  /-- the digest of the value -/
  digest : Digest
  status : Status := .active
  /-- the last stall, unless it was fixed -/
  stallReason : Option StallReason := none
  /-- the number of steps taken -/
  steps : Nat := 0
  /-- the value at the last stall of each pattern -/
  memory : Entries Digest := []
  evidence : Array Evidence := #[]
  events : Array Event := #[]
  /-- the number of events that were not recorded -/
  dropped : Nat := 0

namespace Execution

/-- The most events that are recorded. -/
def maxEvents : Nat := 100000

/-- Starts an execution. -/
def start (kernel : Kernel) (value : Value) : Except Violation Execution :=
  match kernel.accept value with
  | .error e => .error e
  | .ok _ => .ok { kernel, value, digest := value.digest }

/-- The steps among the events. -/
def trace (e : Execution) : Trace :=
  e.events.toList.filterMap fun
    | .step event => some event
    | _ => none

/-- Records an event, or counts it once there are too many. -/
def record (e : Execution) (event : Event) : Execution :=
  if e.events.size < maxEvents then { e with events := e.events.push event }
  else { e with dropped := e.dropped + 1 }

/-- Puts a value in place and forgets all stalls. -/
def replace (e : Execution) (value : Value) (digest : Digest) : Execution :=
  { e with value, digest, memory := [] }

/-- Whether the last stall of a pattern was at the value in place. -/
def remembers (e : Execution) (pattern : String) : Bool :=
  Entries.get? e.memory pattern == some e.digest

/-- Stalls, and notes evidence if the pattern stalled at this value before. -/
def enterStall (e : Execution) (reason : StallReason) : Option Evidence × Execution :=
  let pattern := reason.patternId
  let repeated := e.remembers pattern
  let stalled :=
    { e with status := .stalled, stallReason := some reason }.record
      (.stall e.steps e.digest pattern)
  let remembered := { stalled with memory := Entries.insert pattern e.digest stalled.memory }
  if repeated then
    let evidence := Evidence.ofSecondStall e.digest pattern
    (some evidence,
      { remembered with evidence := remembered.evidence.push evidence }.record (.closure evidence))
  else (none, remembered)

/-- Refuses an operation unless the execution stands where it has to. -/
def require (e : Execution) (operation : String) (status : Status) : Except Refusal Unit :=
  if e.status = status then .ok () else .error (.wrongStatus operation e.status)

/-- A step of an active execution. -/
def advanceActive (e : Execution) : Transition × Execution :=
  let index := e.steps
  let e := { e with steps := e.steps + 1 }
  match e.kernel.apply e.value e.digest with
  | .reduced projection next after =>
    (.reduced projection,
      (e.record (.step ⟨index, e.digest, after, some projection⟩)).replace next after)
  | .stalled reason =>
    let (evidence, e) :=
      (e.record (.step ⟨index, e.digest, e.digest, reason.fired?⟩)).enterStall reason
    (.stalled reason evidence, e)
  | .exhausted resource projection =>
    (.exhausted resource projection, e.record (.exhausted index resource))

/-- Takes up to `budget` steps of an active execution. -/
def runActive : (budget : Nat) → Execution → Halt × Execution
  | 0, e => (.exhausted .steps, e.record (.exhausted e.steps .steps))
  | budget + 1, e =>
    match e.advanceActive with
    | (.reduced _, e) => runActive budget e
    | (.stalled reason _, e) => (.stalled reason, e)
    | (.exhausted resource _, e) => (.exhausted resource, e)

/-- Puts an admitted value in the place of the one that stalled. -/
def resume (e : Execution) (replacement : Value) : Execution :=
  let after := replacement.digest
  let unchanged := after = e.digest
  let fixed := e.record (.fix e.steps e.digest after)
  let replaced := if unchanged then fixed else fixed.replace replacement after
  { replaced with status := .active, stallReason := none }

/-! ## Operations

Each answers what it did, or why it was refused, and the execution after it. -/

/-- Takes one step. -/
def advance (e : Execution) : Except Refusal Transition × Execution :=
  match e.require "advance" .active with
  | .error r => (.error r, e)
  | .ok _ =>
    let (t, e) := e.advanceActive
    (.ok t, e)

/-- Takes steps until one changes nothing or a resource runs out. -/
def run (e : Execution) (maxSteps : Nat) : Except Refusal Halt × Execution :=
  match e.require "run" .active with
  | .error r => (.error r, e)
  | .ok _ =>
    let (h, e) := e.runActive maxSteps
    (.ok h, e)

/-- Stalls for a pattern of the caller's own. -/
def stall (e : Execution) (pattern : String) : Except Refusal (Option Evidence) × Execution :=
  match e.require "stall" .active with
  | .error r => (.error r, e)
  | .ok _ =>
    let (evidence, e) := e.enterStall (.external pattern)
    (.ok evidence, e)

/-- Puts a value in the place of the one that stalled and goes on. -/
def fix (e : Execution) (replacement : Value) : Except Refusal Unit × Execution :=
  match e.require "fix" .stalled with
  | .error r => (.error r, e)
  | .ok _ =>
    match e.kernel.accept replacement with
    | .error v => (.error (.notAdmitted v), e)
    | .ok _ => (.ok (), e.resume replacement)

/-- The same, if the value that stalled is the one expected. -/
def fixChecked (e : Execution) (expected : Digest) (replacement : Value) :
    Except Refusal Unit × Execution :=
  match e.require "fix" .stalled with
  | .error r => (.error r, e)
  | .ok _ =>
    if expected = e.digest then e.fix replacement
    else (.error (.staleTarget expected e.digest), e)

/-- Closes an execution. -/
def terminate (e : Execution) : Except Refusal Unit × Execution :=
  if e.status = .terminal then (.error (.wrongStatus "terminate" .terminal), e)
  else
    let digest := e.digest
    (.ok (), { e with status := .terminal }.record (.terminal digest))

end Execution

end TreeReduction
