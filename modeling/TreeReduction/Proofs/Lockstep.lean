import TreeReduction.Proofs.Containment
import TreeReduction.Proofs.TraceIndices

set_option autoImplicit false

/-!
# Runs of kernels and of executions

A fresh execution that is run comes to what a run of its kernel comes to
(`Execution.run_mirrors`). The two go through the same steps but keep different books: the kernel
numbers its events by the length of the trace and leaves one for every attempt, the execution counts
its steps, tells of more than steps, and leaves no step for a result that broke the limits.

The books agree before every step, which is what the induction on the budget carries: as many steps
were counted as are in the trace, and there is room in the log for what is still to be told
(`Execution.mirrors_runActive`).
-/

namespace TreeReduction

/-- Whether a run ended with a result that broke the limits. -/
def Halt.isOverrun : Halt → Bool
  | .exhausted .depth => true
  | .exhausted .width => true
  | _ => false

namespace Execution

/-! ## Recording with room to spare -/

/-- Events for which there is room are all recorded. -/
theorem recordAll_of_room {e : Execution} {events : List Event}
    (h : e.events.size + events.length ≤ maxEvents) :
    (e.recordAll events).events.toList = e.events.toList ++ events ∧
      (e.recordAll events).dropped = e.dropped := by
  induction events generalizing e with
  | nil => simp
  | cons event rest ih =>
    rw [List.length_cons] at h
    have hroom : e.events.size < maxEvents := by omega
    have hrecord : e.record event = { e with events := e.events.push event } := by
      rw [record, if_pos hroom]
    obtain ⟨hevents, hdropped⟩ := @ih (e.record event) (by simp [hrecord]; omega)
    rw [recordAll_cons, hevents, hdropped, hrecord]
    simp

theorem trace_recordAll_of_room {e : Execution} {events : List Event}
    (h : e.events.size + events.length ≤ maxEvents) :
    (e.recordAll events).trace = e.trace ++ events.filterMap Event.step? := by
  rw [trace_eq, (recordAll_of_room h).1, List.filterMap_append, ← trace_eq]

theorem length_stallEvents_le (e : Execution) (reason : StallReason) :
    (e.stallEvents reason).length ≤ 2 := by
  unfold stallEvents
  cases e.evidence? reason.patternId <;> simp

/-! ## Going on from an execution -/

/-- The run of the kernel that goes on from an execution, with the steps in its trace. -/
def kernelRun (e : Execution) (budget : Nat) : Run :=
  let r := e.kernel.runFrom budget e.steps e.value e.digest
  ⟨r.value, e.trace ++ r.trace, r.halt⟩

/-- The books of an active execution agree: it knows the digest of its value, and it has counted the
steps in its trace. -/
structure InStep (e : Execution) : Prop where
  status_eq : e.status = .active
  digest_eq : e.digest = e.value.digest
  steps_eq : e.steps = e.trace.length

theorem kernelRun_zero (e : Execution) :
    e.kernelRun 0 = ⟨e.value, e.trace, .exhausted .steps⟩ := by
  rw [kernelRun, Kernel.runFrom, List.append_nil]

section Reduced

variable {e : Execution} {id : String} {next : Value} {after : Digest}
  (happly : e.kernel.apply e.value e.digest = .reduced id next after)

include happly

theorem runActive_of_reduced (budget : Nat) :
    e.runActive (budget + 1) = e.advanceActive.2.runActive budget := by
  rw [runActive, advanceActive_of_reduced happly]

variable (hroom : e.events.size < maxEvents)

include hroom

/-- A step that rewrites adds its event to the log and to the trace. -/
theorem log_of_reduced :
    e.advanceActive.2.events.size = e.events.size + 1 ∧
      e.advanceActive.2.dropped = e.dropped ∧
        e.advanceActive.2.trace = e.trace ++ [⟨e.steps, e.digest, after, some id⟩] := by
  let core : Execution :=
    { e with value := next, digest := after, steps := e.steps + 1, memory := [] }
  let event : Event := .step ⟨e.steps, e.digest, after, some id⟩
  have hone : core.events.size + [event].length ≤ maxEvents := hroom
  obtain ⟨hevents, hdropped⟩ := recordAll_of_room hone
  rw [advanceActive_of_reduced happly]
  refine ⟨?_, hdropped, trace_recordAll_of_room hone⟩
  rw [← Array.length_toList, hevents, List.length_append, Array.length_toList]
  rfl

/-- A step that rewrites keeps the books in agreement. -/
theorem InStep.advance (h : e.InStep) : e.advanceActive.2.InStep := by
  obtain ⟨-, -, htrace⟩ := log_of_reduced happly hroom
  rw [advanceActive_of_reduced happly] at htrace ⊢
  refine ⟨?_, ?_, ?_⟩
  · rw [recordAll_status]
    exact h.status_eq
  · rw [recordAll_digest, recordAll_value]
    exact (Kernel.digest_of_reduced happly).symm
  · rw [htrace, recordAll_steps, List.length_append, ← h.steps_eq]
    rfl

/-- A step that rewrites leaves the run that was to come. -/
theorem kernelRun_of_reduced (budget : Nat) :
    e.kernelRun (budget + 1) = e.advanceActive.2.kernelRun budget := by
  obtain ⟨-, -, htrace⟩ := log_of_reduced happly hroom
  rw [kernelRun, kernelRun, htrace, Kernel.runFrom, happly, advanceActive_of_reduced happly]
  simp only [recordAll_kernel, recordAll_steps, recordAll_value, recordAll_digest,
    List.append_assoc, List.singleton_append]

end Reduced

theorem runActive_of_stalled {e : Execution} {reason : StallReason}
    (happly : e.kernel.apply e.value e.digest = .stalled reason) (budget : Nat) :
    e.runActive (budget + 1) =
      (.stalled reason, ({ e with steps := e.steps + 1 }.stalled reason).recordAll
        (.step ⟨e.steps, e.digest, e.digest, reason.fired?⟩ ::
          { e with steps := e.steps + 1 }.stallEvents reason)) := by
  rw [runActive, advanceActive_of_stalled happly]

theorem kernelRun_of_stalled {e : Execution} {reason : StallReason}
    (happly : e.kernel.apply e.value e.digest = .stalled reason) (budget : Nat) :
    e.kernelRun (budget + 1) =
      ⟨e.value, e.trace ++ [⟨e.steps, e.digest, e.digest, reason.fired?⟩], .stalled reason⟩ := by
  rw [kernelRun, Kernel.runFrom, happly]

theorem runActive_of_exhausted {e : Execution} {resource : Resource} {id : String}
    (happly : e.kernel.apply e.value e.digest = .exhausted resource id) (budget : Nat) :
    e.runActive (budget + 1) =
      (.exhausted resource,
        { e with steps := e.steps + 1 }.recordAll [.exhausted e.steps resource]) := by
  rw [runActive, advanceActive_of_exhausted happly]

theorem kernelRun_of_exhausted {e : Execution} {resource : Resource} {id : String}
    (happly : e.kernel.apply e.value e.digest = .exhausted resource id) (budget : Nat) :
    e.kernelRun (budget + 1) =
      ⟨e.value, e.trace ++ [⟨e.steps, e.digest, e.digest, some id⟩], .exhausted resource⟩ := by
  rw [kernelRun, Kernel.runFrom, happly]

/-! ## Runs of an active execution -/

/-- The event of a step that a run did not put in place, because the result broke the limits. -/
def overrunEvent (index : Nat) (digest : Digest) (id : String) : TraceEvent :=
  ⟨index, digest, digest, some id⟩

/-- An execution stands where a run of its kernel ended. Only a step whose result broke the limits
is missing from its trace, where it would be the last. -/
structure Mirrors (e : Execution) (r : Run) : Prop where
  value_eq : e.value = r.value
  digest_eq : e.digest = r.value.digest
  steps_eq : e.steps = r.trace.length
  status_eq : e.status = if r.halt.isStalled then .stalled else .active
  trace_eq : r.halt.isOverrun = false → e.trace = r.trace
  trace_of_overrun : r.halt.isOverrun = true →
    ∃ id, r.trace = e.trace ++ [overrunEvent e.trace.length e.digest id]

/-- The events that an execution tells last bring its trace to that of a run. -/
theorem mirrors_recordAll {core : Execution} {news : List Event} {r : Run}
    (hroom : core.events.size + news.length ≤ maxEvents) (hvalue : core.value = r.value)
    (hdigest : core.digest = r.value.digest) (hsteps : core.steps = r.trace.length)
    (hstatus : core.status = if r.halt.isStalled then .stalled else .active)
    (htrace : r.halt.isOverrun = false → core.trace ++ news.filterMap Event.step? = r.trace)
    (hoverrun : r.halt.isOverrun = true → news.filterMap Event.step? = [] ∧
      ∃ id, r.trace = core.trace ++ [overrunEvent core.trace.length core.digest id]) :
    (core.recordAll news).Mirrors r where
  value_eq := (recordAll_value core news).trans hvalue
  digest_eq := (recordAll_digest core news).trans hdigest
  steps_eq := (recordAll_steps core news).trans hsteps
  status_eq := (recordAll_status core news).trans hstatus
  trace_eq h := (trace_recordAll_of_room hroom).trans (htrace h)
  trace_of_overrun h := by
    obtain ⟨hnone, hlast⟩ := hoverrun h
    rwa [trace_recordAll_of_room hroom, hnone, List.append_nil, recordAll_digest]

/-- Running an active execution goes on with the run that its trace tells of. -/
theorem mirrors_runActive {e : Execution} (budget : Nat) (h : e.InStep)
    (hroom : e.events.size + budget + 2 ≤ maxEvents) :
    (e.runActive budget).1 = (e.kernelRun budget).halt ∧
      (e.runActive budget).2.dropped = e.dropped ∧
        (e.runActive budget).2.Mirrors (e.kernelRun budget) := by
  induction budget generalizing e with
  | zero =>
    have hspent : e.runActive 0 = (.exhausted .steps, e.recordAll [.exhausted e.steps .steps]) :=
      rfl
    have hone : e.events.size + 1 ≤ maxEvents := by omega
    rw [hspent, kernelRun_zero]
    refine ⟨rfl, (recordAll_of_room hone).2, ?_⟩
    exact mirrors_recordAll hone rfl h.digest_eq h.steps_eq h.status_eq (fun _ => List.append_nil _)
      (by simp [Halt.isOverrun])
  | succ budget ih =>
    cases happly : e.kernel.apply e.value e.digest with
    | reduced id next after =>
      have hone : e.events.size < maxEvents := by omega
      obtain ⟨hsize, hdropped, -⟩ := log_of_reduced happly hone
      rw [runActive_of_reduced happly, kernelRun_of_reduced happly hone, ← hdropped]
      exact ih (h.advance happly hone) (by omega)
    | stalled reason =>
      let core := { e with steps := e.steps + 1 }.stalled reason
      let step : TraceEvent := ⟨e.steps, e.digest, e.digest, reason.fired?⟩
      let news := .step step :: { e with steps := e.steps + 1 }.stallEvents reason
      have hnews : core.events.size + news.length ≤ maxEvents := by
        have htwo := length_stallEvents_le { e with steps := e.steps + 1 } reason
        change e.events.size + (_ + 1) ≤ maxEvents
        omega
      have htold : news.filterMap Event.step? = [step] := by
        simp [news, Event.step?, filterMap_step?_stallEvents]
      have hsteps : core.steps = (e.trace ++ [step]).length := by
        rw [List.length_append, ← h.steps_eq]
        rfl
      rw [runActive_of_stalled happly, kernelRun_of_stalled happly]
      refine ⟨rfl, (recordAll_of_room hnews).2, ?_⟩
      exact mirrors_recordAll hnews rfl h.digest_eq hsteps rfl
        (fun _ => congrArg (e.trace ++ ·) htold) (by simp [Halt.isOverrun])
    | exhausted resource id =>
      let core : Execution := { e with steps := e.steps + 1 }
      have hone : core.events.size + 1 ≤ maxEvents := by
        change e.events.size + 1 ≤ maxEvents
        omega
      have hsteps : core.steps = (e.trace ++ [overrunEvent e.steps e.digest id]).length := by
        rw [List.length_append, ← h.steps_eq]
        rfl
      have hoverrun : (Halt.exhausted resource).isOverrun = true := by
        cases resource with
        | steps => exact absurd happly (e.kernel.apply_ne_exhausted_steps _ _ id)
        | depth => rfl
        | width => rfl
      rw [runActive_of_exhausted happly, kernelRun_of_exhausted happly]
      refine ⟨rfl, (recordAll_of_room hone).2, ?_⟩
      refine mirrors_recordAll hone rfl h.digest_eq hsteps h.status_eq (by simp [hoverrun])
        fun _ => ⟨rfl, id, ?_⟩
      rw [h.steps_eq]
      rfl

/-! ## Fresh executions -/

theorem inStep_start {k : Kernel} {v : Value} {e : Execution} (h : start k v = .ok e) :
    e.InStep := by
  obtain rfl := eq_of_start h
  exact ⟨rfl, rfl, rfl⟩

/-- A value is refused by a kernel that would run it and by an execution alike, for the same reason.
Otherwise a fresh execution that is run for no more steps than the kernel takes in one run ends
where the kernel's run ends, in the same halt, and drops no event. -/
theorem run_mirrors (k : Kernel) (v : Value) {maxSteps : Nat} (hmaxSteps : maxSteps ≤ 50000) :
    (∃ violation, start k v = .error violation ∧ k.run v maxSteps = .error violation) ∨
    ∃ first r, start k v = .ok first ∧ k.run v maxSteps = .ok r ∧
      (first.run maxSteps).1 = .ok r.halt ∧ (first.run maxSteps).2.dropped = 0 ∧
        (first.run maxSteps).2.Mirrors r := by
  cases haccept : k.accept v with
  | error violation => exact .inl ⟨violation, by rw [start, haccept], by rw [Kernel.run, haccept]⟩
  | ok _ =>
    let first : Execution := { kernel := k, value := v, digest := v.digest }
    have hstart : start k v = .ok first := start_of_accept haccept
    have hbudget : min maxSteps Kernel.maxRunSteps = maxSteps := Nat.min_eq_left hmaxSteps
    have hkernel : k.run v maxSteps = .ok (first.kernelRun maxSteps) := by
      rw [Kernel.run_of_accept haccept, hbudget]
      rfl
    have hrun : first.run maxSteps =
        (.ok (first.runActive maxSteps).1, (first.runActive maxSteps).2) := rfl
    have hroom : first.events.size + maxSteps + 2 ≤ maxEvents := by
      change 0 + maxSteps + 2 ≤ 100000
      omega
    obtain ⟨hhalt, hdropped, hmirrors⟩ := mirrors_runActive maxSteps (inStep_start hstart) hroom
    refine .inr ⟨first, _, hstart, hkernel, ?_⟩
    rw [hrun]
    exact ⟨congrArg Except.ok hhalt, hdropped, hmirrors⟩

/-- A catalog that puts a value into one list after the other, until they nest too deep. -/
def nesting : Kernel :=
  ⟨⟨[⟨"wrap", .site "x", .list [.site "x"]⟩]⟩, { maxDepth := 2 }⟩

theorem run_mirrors_nesting :
    9 ≤ 50000 ∧
    ∃ first r, start nesting (.str "a") = .ok first ∧ nesting.run (.str "a") 9 = .ok r ∧
      (first.run 9).1 = .ok r.halt ∧ (first.run 9).2.dropped = 0 ∧ (first.run 9).2.Mirrors r := by
  have hmaxSteps : 9 ≤ 50000 := by decide
  rcases run_mirrors nesting (.str "a") hmaxSteps with ⟨violation, hrefused, -⟩ | hagree
  · cases hrefused
  · exact ⟨hmaxSteps, hagree⟩

end Execution

end TreeReduction
