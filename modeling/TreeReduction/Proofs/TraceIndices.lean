import TreeReduction.Proofs.EventLog
import TreeReduction.Proofs.TraceCodec

set_option autoImplicit false

/-!
# The indices of a trace

The trace of an execution can be read back from its binary form exactly when no step was recorded
after one whose result broke the limits (`Execution.decode_encode_trace_iff`). Such a step is
counted and leaves no event in the trace, so the numbers of the steps after it are too high
(`Execution.attempts_eq`).

Everything else that reading checks holds in any case: indices and ids are small enough to be stored
(`Execution.storable_of_mem_trace`), and fewer events are recorded than are read.
-/

namespace TreeReduction

namespace Event

/-- The step that an event records. -/
def step? : Event → Option TraceEvent
  | .step event => some event
  | _ => none

theorem step?_eq_some_iff {event : Event} {step : TraceEvent} :
    event.step? = some step ↔ event = .step step := by
  cases event <;> simp [step?]

/-- Whether an event tells of a step whose result broke the limits. -/
def isOverrun : Event → Bool
  | .exhausted _ resource => resource = .depth || resource = .width
  | _ => false

end Event

namespace Execution

theorem trace_eq (e : Execution) : e.trace = e.events.toList.filterMap Event.step? := by
  unfold trace
  congr 1

theorem mem_trace_iff {e : Execution} {step : TraceEvent} :
    step ∈ e.trace ↔ .step step ∈ e.events.toList := by
  rw [trace_eq, List.mem_filterMap]
  simp only [Event.step?_eq_some_iff, exists_eq_right]

/-! ## Indices -/

/-- No step stands in a log after one whose result broke the limits. -/
def NoStepAfterOverrun (log : List Event) : Prop :=
  ∀ before event after, log = before ++ event :: after →
    event.step?.isSome → before.any Event.isOverrun = false

/-- The steps attempted are those recorded and those whose results broke the limits. -/
theorem attempts_eq (log : List Event) :
    attempts log = (log.filterMap Event.step?).length + log.countP Event.isOverrun := by
  have hevent : ∀ event : Event, (if event.isAttempt then 1 else 0) =
      ([event].filterMap Event.step?).length + [event].countP Event.isOverrun := by
    intro event
    cases event with
    | exhausted index resource => cases resource <;> rfl
    | _ => rfl
  induction log using List.reverseRecOn with
  | nil => rfl
  | append_singleton log event ih =>
    rw [attempts_concat, ih, hevent, List.filterMap_append, List.length_append, List.countP_append]
    omega

/-- The steps of a coherent log are numbered from zero without gaps exactly when none stands after
one whose result broke the limits. -/
theorem indices_eq_range_iff {initial : Digest} {log : List Event} (h : Coherent initial log) :
    (log.filterMap Event.step?).map (·.index) = List.range (log.filterMap Event.step?).length ↔
      NoStepAfterOverrun log := by
  induction log using List.reverseRecOn with
  | nil => simp [NoStepAfterOverrun]
  | append_singleton log event ih =>
    obtain ⟨hlog, hfits⟩ := coherent_concat_iff.1 h
    rw [NoStepAfterOverrun, forall_split_concat_iff, ← NoStepAfterOverrun, ← ih hlog,
      List.filterMap_append]
    cases hstep : event.step? with
    | none => simp [hstep]
    | some step =>
      -- A step is in its place when as many were recorded before it as were attempted.
      have hindex : step.index = attempts log := by
        obtain rfl := Event.step?_eq_some_iff.1 hstep
        exact hfits.index_eq step.index rfl
      have hlast : step.index = (log.filterMap Event.step?).length ↔
          log.any Event.isOverrun = false := by
        rw [hindex, attempts_eq, Nat.add_eq_left, List.countP_eq_zero, List.any_eq_false]
      simp [hstep, List.range_succ, hlast]

/-! ## Storing -/

/-- A stall tells of no step. -/
theorem filterMap_step?_stallEvents (e : Execution) (reason : StallReason) :
    (e.stallEvents reason).filterMap Event.step? = [] := by
  unfold stallEvents
  cases e.evidence? reason.patternId <;> rfl

theorem step_notMem_stallEvents (e : Execution) (reason : StallReason) (step : TraceEvent) :
    .step step ∉ e.stallEvents reason := by
  intro hmem
  have hstep : step ∈ (e.stallEvents reason).filterMap Event.step? :=
    List.mem_filterMap.2 ⟨_, hmem, rfl⟩
  simp [filterMap_step?_stallEvents] at hstep

/-- A move only tells of projections of the catalog. -/
theorem Change.mem_ids {e core : Execution} {news : List Event} (h : e.Change news core)
    {step : TraceEvent} (hstep : .step step ∈ news) {id : String} (hid : id ∈ step.projection) :
    id ∈ e.kernel.catalog.ids := by
  cases h with
  | reduced hactive happly =>
    obtain rfl := Event.step.inj (List.mem_singleton.1 hstep)
    exact Kernel.mem_ids_of_fired? happly hid
  | stuck hactive happly =>
    rcases List.mem_cons.1 hstep with heq | hstall
    · obtain rfl := Event.step.inj heq
      exact Kernel.mem_ids_of_fired? happly hid
    · exact absurd hstall (step_notMem_stallEvents _ _ step)
  | reported hactive => exact absurd hstep (step_notMem_stallEvents _ _ step)
  | _ => simp at hstep

theorem Reaches.mem_ids {first e : Execution} {earlier : List Execution} {told : List Event}
    (h : Reaches first earlier told e) {step : TraceEvent} (hstep : .step step ∈ told) {id : String}
    (hid : id ∈ step.projection) : id ∈ first.kernel.catalog.ids := by
  induction h with
  | start => simp at hstep
  | move hreaches hchange ih =>
    rcases List.mem_append.1 hstep with htold | hnews
    · exact ih htold
    · exact hreaches.kernel_eq ▸ hchange.mem_ids hnews hid

section

variable {k : Kernel} {v : Value} {first : Execution} (hstart : start k v = .ok first)
  (operations : List Operation)

include hstart

/-- No more events are recorded than there is room for. -/
theorem length_events_le : (first.performAll operations).events.toList.length ≤ maxEvents := by
  obtain ⟨earlier, told, hreaches⟩ := reaches_performAll first operations
  rw [(hreaches.records hstart).events_eq]
  exact List.length_take_le maxEvents told

/-- The recorded steps are due to projections of the catalog. -/
theorem mem_ids_of_mem_trace {step : TraceEvent}
    (hstep : step ∈ (first.performAll operations).trace) {id : String}
    (hid : id ∈ step.projection) : id ∈ k.catalog.ids := by
  obtain ⟨earlier, told, hreaches⟩ := reaches_performAll first operations
  have htold : .step step ∈ told := by
    rw [mem_trace_iff, (hreaches.records hstart).events_eq] at hstep
    exact List.mem_of_mem_take hstep
  have hkernel : first.kernel = k := by rw [eq_of_start hstart]
  exact hkernel ▸ hreaches.mem_ids htold hid

/-- The numbers of a trace can be stored if the ids of the catalog can. -/
theorem storable_of_mem_trace (hids : ∀ id ∈ k.catalog.ids, id.utf8ByteSize < 2 ^ 64) :
    ∀ step ∈ (first.performAll operations).trace, Trace.Storable step := by
  intro step hstep
  refine ⟨?_, fun id hid => hids id (mem_ids_of_mem_trace hstart operations hstep hid)⟩
  obtain ⟨before, after, hsplit⟩ := List.append_of_mem (mem_trace_iff.1 hstep)
  have hindex : step.index = attempts before :=
    (coherent_performAll hstart operations before _ after hsplit).index_eq step.index rfl
  have hattempts : attempts before ≤ before.length := List.countP_le_length
  have hlength := length_events_le hstart operations
  rw [hsplit, List.length_append, List.length_cons, maxEvents] at hlength
  omega

/-- The trace of an execution is read back from its binary form, which is to say that its indices
count up from zero, exactly when no step was recorded after one whose result broke the limits. -/
theorem decode_encode_trace_iff (hids : ∀ id ∈ k.catalog.ids, id.utf8ByteSize < 2 ^ 64) :
    (Trace.decode (Trace.encode (first.performAll operations).trace) =
        .ok (first.performAll operations).trace ↔
      NoStepAfterOverrun (first.performAll operations).events.toList) ∧
    ((first.performAll operations).trace.map (·.index) =
        List.range (first.performAll operations).trace.length ↔
      NoStepAfterOverrun (first.performAll operations).events.toList) := by
  have hindices := indices_eq_range_iff (coherent_performAll hstart operations)
  rw [← trace_eq] at hindices
  have hlength : (first.performAll operations).trace.length ≤ maxEvents := by
    rw [trace_eq]
    exact (List.length_filterMap_le _ _).trans (length_events_le hstart operations)
  rw [maxEvents] at hlength
  have hdecode := Trace.decode_encode_eq_ok_iff (by omega)
    (storable_of_mem_trace hstart operations hids)
  refine ⟨?_, hindices⟩
  rw [hdecode, hindices, and_iff_right]
  rw [Trace.maxEvents]
  omega

end

/-- A run that rewrites once and then stalls leaves a trace that can be read back. -/
theorem decode_encode_trace_iff_run :
    ∃ first, start ⟨⟨[⟨"next", .str "a", .str "b"⟩]⟩, {}⟩ (.str "a") = .ok first ∧
      Trace.decode (Trace.encode (first.performAll [.run 5]).trace) =
        .ok (first.performAll [.run 5]).trace := by
  let k : Kernel := ⟨⟨[⟨"next", .str "a", .str "b"⟩]⟩, {}⟩
  let first : Execution :=
    { kernel := k, value := .str "a", digest := (Value.str "a").digest }
  have hstart : start k (.str "a") = .ok first := rfl
  have hids : ∀ id ∈ k.catalog.ids, id.utf8ByteSize < 2 ^ 64 := by decide
  have hreads := decode_encode_trace_iff hstart [.run 5] hids
  have hindices : (first.performAll [.run 5]).trace.map (·.index) =
      List.range (first.performAll [.run 5]).trace.length := by decide +kernel
  exact ⟨first, hstart, hreads.1.2 (hreads.2.1 hindices)⟩

/-- A step whose result is too deep, a stall that the caller reports, a fix and one more step: the
trace holds that last step alone, with the index one, and cannot be read back. -/
theorem decode_trace_after_overrun :
    ∃ first, start ⟨⟨[⟨"wrap", .str "a", .list [.str "a"]⟩]⟩, { maxDepth := 0 }⟩ (.str "a") =
        .ok first ∧
      (first.performAll [.advance, .stall "p", .fix (.str "b"), .advance]).trace.map (·.index) =
        [1] ∧
      Trace.decode (Trace.encode
        (first.performAll [.advance, .stall "p", .fix (.str "b"), .advance]).trace) =
          .error (.outOfSequence 1 0) :=
  ⟨_, rfl, by decide +kernel, by decide +kernel⟩

end Execution

end TreeReduction
