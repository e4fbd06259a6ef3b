import TreeReduction.Proofs.Moves
import TreeReduction.Proofs.Steps

set_option autoImplicit false

/-!
# The event log

Unless events were dropped, the log of an execution replays to the state that the execution is in
(`Execution.performAll_replays`). The operations write the log from several places, some before they
change the state and some after it; what carries the argument is that each move, with the events
that it tells, takes a log that replays to the state before it to one that replays to the state
after it (`Execution.Replays.change`).

The log records the first events told and counts the rest (`Execution.Records`), so what every event
of a whole log has to fit holds for the recorded ones in any case
(`Execution.coherent_performAll`).
-/

namespace TreeReduction

/-! ## Reading a log -/

namespace Event

/-- Whether an event stands for an attempted step. A run that spends its budget tells of no step. -/
@[simp]
def isAttempt : Event → Bool
  | .step _ => true
  | .exhausted _ resource => resource = .depth || resource = .width
  | _ => false

/-- Whether an event is a stall. -/
@[simp]
def isStall : Event → Bool
  | .stall .. => true
  | _ => false

/-- Whether an event is a fix. -/
@[simp]
def isFix : Event → Bool
  | .fix .. => true
  | _ => false

/-- Whether an event closes the execution. -/
@[simp]
def isTerminal : Event → Bool
  | .terminal _ => true
  | _ => false

/-- The evidence that an event records. -/
@[simp]
def evidence? : Event → Option Evidence
  | .closure evidence => some evidence
  | _ => none

/-- The number of steps before an event, as it tells. -/
@[simp]
def index? : Event → Option Nat
  | .step event => some event.index
  | .stall index _ _ => some index
  | .fix index _ _ => some index
  | .exhausted index _ => some index
  | _ => none

/-- The digest that an event starts from, as it tells. -/
@[simp]
def digest? : Event → Option Digest
  | .step event => some event.before
  | .stall _ value _ => some value
  | .fix _ before _ => some before
  | .closure evidence => some evidence.value
  | .terminal value => some value
  | .exhausted .. => none

/-- The digest of the value after an event, given the one before it. -/
@[simp]
def digestAfter (digest : Digest) : Event → Digest
  | .step event => event.after
  | .fix _ _ after => after
  | _ => digest

/-- Where an execution stands after an event, given where it stood before it. -/
@[simp]
def statusAfter (status : Status) : Event → Status
  | .stall .. => .stalled
  | .fix .. => .active
  | .terminal _ => .terminal
  | _ => status

end Event

namespace Execution

/-- The digest of the value after the events of a log. -/
def runningDigest (initial : Digest) (log : List Event) : Digest :=
  log.foldl Event.digestAfter initial

/-- The number of steps attempted in a log. -/
def attempts (log : List Event) : Nat :=
  log.countP Event.isAttempt

/-- Whether a log holds a stall with no fix after it. -/
def hasOpenStall : List Event → Bool
  | [] => false
  | event :: rest => event.isStall && !rest.any Event.isFix || hasOpenStall rest

/-- Where an execution stands after the events of a log. -/
def statusAfter (log : List Event) : Status :=
  if log.getLast?.any Event.isTerminal then .terminal
  else if hasOpenStall log then .stalled
  else .active

/-- An event fits the log before it: its index counts the steps attempted, the digest that it starts
from is the running one, evidence comes right after the stall that gives it, and nothing comes after
the execution was closed. -/
structure Fits (initial : Digest) (past : List Event) (event : Event) : Prop where
  index_eq : ∀ index ∈ event.index?, index = attempts past
  digest_eq : ∀ digest ∈ event.digest?, digest = runningDigest initial past
  stall_before : ∀ evidence, event = .closure evidence →
    ∃ index, past.getLast? = some (.stall index evidence.value evidence.pattern)
  not_closed : past.any Event.isTerminal = false

/-- Every event of a log fits those before it. -/
def Coherent (initial : Digest) (log : List Event) : Prop :=
  ∀ before event after, log = before ++ event :: after → Fits initial before event

/-- A log is coherent and replays to the state of an execution. -/
structure Replays (initial : Digest) (log : List Event) (e : Execution) : Prop where
  coherent : Coherent initial log
  digest_eq : e.digest = runningDigest initial log
  steps_eq : e.steps = attempts log
  evidence_eq : e.evidence.toList = log.filterMap Event.evidence?
  status_eq : e.status = statusAfter log

/-! ## Logs that grow -/

variable {initial : Digest} {log : List Event} {event : Event}

/-- What holds of all members of a list and of what stands before them goes on to hold with one
member more. -/
theorem forall_split_concat_iff {α : Type} {P : List α → α → Prop} {as : List α} {b : α} :
    (∀ before a after, as ++ [b] = before ++ a :: after → P before a) ↔
      (∀ before a after, as = before ++ a :: after → P before a) ∧ P as b := by
  constructor
  · intro h
    exact ⟨fun before a after hsplit => h before a (after ++ [b]) (by simp [hsplit]), h as b [] rfl⟩
  · rintro ⟨has, hb⟩ before a after hsplit
    rcases List.eq_nil_or_concat' after with rfl | ⟨after, last, rfl⟩
    · obtain ⟨rfl, hlast⟩ := List.append_inj' hsplit rfl
      obtain rfl : b = a := by simpa using hlast
      exact hb
    · have hconcat : as ++ [b] = (before ++ a :: after) ++ [last] := by simpa using hsplit
      exact has before a after (List.append_inj' hconcat rfl).1

theorem coherent_concat_iff :
    Coherent initial (log ++ [event]) ↔ Coherent initial log ∧ Fits initial log event :=
  forall_split_concat_iff

theorem Coherent.take (h : Coherent initial log) (n : Nat) : Coherent initial (log.take n) := by
  intro before e after hsplit
  refine h before e (after ++ log.drop n) ?_
  rw [← List.cons_append, ← List.append_assoc, ← hsplit, List.take_append_drop]

theorem hasOpenStall_concat (log : List Event) (event : Event) :
    hasOpenStall (log ++ [event]) = (event.isStall || hasOpenStall log && !event.isFix) := by
  induction log with
  | nil => simp [hasOpenStall]
  | cons first rest ih =>
    simp only [List.cons_append, hasOpenStall, ih, List.any_append, List.any_cons, List.any_nil]
    cases first.isStall <;> cases event.isStall <;> cases event.isFix <;> simp

theorem attempts_concat (log : List Event) (event : Event) :
    attempts (log ++ [event]) = attempts log + if event.isAttempt then 1 else 0 := by
  simp [attempts, List.countP_append, List.countP_cons]

theorem runningDigest_concat (initial : Digest) (log : List Event) (event : Event) :
    runningDigest initial (log ++ [event]) = event.digestAfter (runningDigest initial log) := by
  simp [runningDigest]

/-- Until an execution is closed, the last event decides where it stands. -/
theorem statusAfter_concat (hopen : statusAfter log ≠ .terminal) (event : Event) :
    statusAfter (log ++ [event]) = event.statusAfter (statusAfter log) := by
  have hlog : statusAfter log = if hasOpenStall log then .stalled else .active := by
    unfold statusAfter at hopen ⊢
    split
    · rename_i hclosed
      simp [hclosed] at hopen
    · rfl
  rw [hlog, statusAfter, List.getLast?_concat, hasOpenStall_concat]
  cases event <;> simp [Event.isTerminal, Event.isStall, Event.isFix, Event.statusAfter]

/-- Only an execution that was closed has told so. -/
theorem any_isTerminal_eq_false (h : Coherent initial log) (hopen : statusAfter log ≠ .terminal) :
    log.any Event.isTerminal = false := by
  rcases List.eq_nil_or_concat' log with rfl | ⟨past, last, rfl⟩
  · rfl
  · have hpast := (coherent_concat_iff.1 h).2.not_closed
    cases hlast : last.isTerminal with
    | true =>
      rw [statusAfter, List.getLast?_concat, Option.any_some, if_pos hlast] at hopen
      exact absurd rfl hopen
    | false =>
      simp only [List.any_append, hpast, List.any_cons, hlast, List.any_nil, Bool.or_false]

/-! ## What moves tell -/

variable {e core next : Execution} {news : List Event}

/-- A log that replays to an execution goes on with an event that starts from it. -/
theorem Replays.concat (h : Replays initial log e) (hopen : e.status ≠ .terminal)
    (hindex : ∀ index ∈ event.index?, index = e.steps)
    (hbefore : ∀ digest ∈ event.digest?, digest = e.digest)
    (hstall : ∀ evidence, event = .closure evidence →
      ∃ index, log.getLast? = some (.stall index evidence.value evidence.pattern))
    (hdigest : next.digest = event.digestAfter e.digest)
    (hsteps : next.steps = e.steps + if event.isAttempt then 1 else 0)
    (hevidence : next.evidence.toList = e.evidence.toList ++ event.evidence?.toList)
    (hstatus : next.status = event.statusAfter e.status) :
    Replays initial (log ++ [event]) next := by
  have hlog : statusAfter log ≠ .terminal := h.status_eq ▸ hopen
  refine ⟨coherent_concat_iff.2 ⟨h.coherent, ?_⟩, ?_, ?_, ?_, ?_⟩
  · exact ⟨h.steps_eq ▸ hindex, h.digest_eq ▸ hbefore, hstall,
      any_isTerminal_eq_false h.coherent hlog⟩
  · rw [hdigest, runningDigest_concat, h.digest_eq]
  · rw [hsteps, attempts_concat, h.steps_eq]
  · rw [hevidence, h.evidence_eq, List.filterMap_append, List.filterMap_cons, List.filterMap_nil]
    cases event.evidence? <;> rfl
  · rw [hstatus, statusAfter_concat hlog, h.status_eq]

/-- The events of a stall replay to the stalled execution. -/
theorem Replays.stalled (h : Replays initial log e) (hactive : e.status = .active)
    (reason : StallReason) :
    Replays initial (log ++ e.stallEvents reason) (e.stalled reason) := by
  have hstall : ∀ next : Execution, next.digest = e.digest → next.steps = e.steps →
      next.evidence = e.evidence → next.status = .stalled →
      Replays initial (log ++ [.stall e.steps e.digest reason.patternId]) next := by
    intro next hdigest hsteps hevidence hstatus
    exact h.concat (by simp [hactive]) (by simp) (by simp) (by simp) hdigest hsteps
      (by simp [hevidence]) hstatus
  rw [stallEvents]
  unfold Execution.stalled
  cases hevidence : e.evidence? reason.patternId with
  | none => exact hstall _ rfl rfl (by simp) rfl
  | some evidence =>
    obtain ⟨-, rfl⟩ := evidence?_eq_some_iff.1 hevidence
    rw [List.append_cons]
    refine (hstall { e with status := .stalled } rfl rfl rfl rfl).concat (by simp) (by simp)
      (by simp) ?_ rfl rfl (by simp) rfl
    rintro _ ⟨⟩
    exact ⟨e.steps, by simp⟩

/-- A move takes a log that replays to the execution before it, with the events that it tells, to a
log that replays to the execution after it. -/
theorem Replays.change (h : Replays initial log e) (hchange : e.Change news core) :
    Replays initial (log ++ news) core := by
  cases hchange with
  | refused => simpa using h
  | reduced hactive happly =>
    exact h.concat (by simp [hactive]) (by simp) (by simp) (by simp) rfl rfl (by simp) rfl
  | @stuck reason hactive happly =>
    -- The stall is told of after the step, with the step counted.
    have hstep : Replays initial (log ++ [.step ⟨e.steps, e.digest, e.digest, reason.fired?⟩])
        { e with steps := e.steps + 1 } :=
      h.concat (by simp [hactive]) (by simp) (by simp) (by simp) rfl rfl (by simp) rfl
    rw [List.append_cons]
    exact hstep.stalled hactive reason
  | @exceeded resource id hactive happly =>
    -- Only a run exhausts the budget of steps, and that is no attempt.
    have hattempt : (Event.exhausted e.steps resource).isAttempt = true := by
      cases resource with
      | steps => exact absurd happly (e.kernel.apply_ne_exhausted_steps _ _ id)
      | depth => rfl
      | width => rfl
    exact h.concat (by simp [hactive]) (by simp) (by simp) (by simp) rfl
      (by rw [if_pos hattempt]) (by simp) rfl
  | spent hactive =>
    exact h.concat (by simp [hactive]) (by simp) (by simp) (by simp) rfl rfl (by simp) rfl
  | reported hactive => exact h.stalled hactive _
  | kept hstalled haccept hsame =>
    exact h.concat (by simp [hstalled]) (by simp) (by simp) (by simp) rfl rfl (by simp) rfl
  | fixed hstalled haccept hother =>
    exact h.concat (by simp [hstalled]) (by simp) (by simp) (by simp) rfl rfl (by simp) rfl
  | closed hopen => exact h.concat hopen (by simp) (by simp) (by simp) rfl rfl (by simp) rfl

/-- Recording touches nothing that a log replays to. -/
theorem Replays.recordAll (h : Replays initial log e) (events : List Event) :
    Replays initial log (e.recordAll events) := by
  refine ⟨h.coherent, ?_, ?_, ?_, ?_⟩
  · rw [recordAll_digest, h.digest_eq]
  · rw [recordAll_steps, h.steps_eq]
  · rw [recordAll_evidence, h.evidence_eq]
  · rw [recordAll_status, h.status_eq]

theorem replays_start {k : Kernel} {v : Value} (h : start k v = .ok e) :
    Replays v.digest [] e := by
  obtain rfl := eq_of_start h
  exact ⟨by simp [Coherent], rfl, rfl, rfl, rfl⟩

/-- What was told on the way replays to the execution that moves lead to. -/
theorem Reaches.replays {first : Execution} {earlier : List Execution} {told : List Event}
    (h : Reaches first earlier told e) {k : Kernel} {v : Value}
    (hstart : Execution.start k v = .ok first) : Replays v.digest told e := by
  induction h with
  | start => exact replays_start hstart
  | move _ hchange ih => exact (ih.change hchange).recordAll _

/-! ## What is recorded -/

/-- An execution holds the first events that were told and the number of the others. -/
structure Records (told : List Event) (e : Execution) : Prop where
  events_eq : e.events.toList = told.take maxEvents
  dropped_eq : e.dropped = told.length - maxEvents

theorem Records.record (h : Records log e) (event : Event) :
    Records (log ++ [event]) (e.record event) := by
  obtain ⟨hevents, hdropped⟩ := h
  have hsize : e.events.size = min maxEvents log.length := by
    rw [← Array.length_toList, hevents, List.length_take]
  unfold Execution.record
  split
  · rename_i hroom
    have hlength : log.length < maxEvents := by omega
    refine ⟨?_, ?_⟩
    · rw [Array.toList_push, hevents, List.take_of_length_le (by omega),
        List.take_of_length_le (by simp; omega)]
    · rw [List.length_append, List.length_singleton]
      simp only
      omega
  · rename_i hfull
    have hlength : maxEvents ≤ log.length := by omega
    refine ⟨?_, ?_⟩
    · rw [List.take_append_of_le_length hlength]
      exact hevents
    · rw [List.length_append, List.length_singleton]
      simp only
      omega

theorem Records.recordAll (h : Records log e) (events : List Event) :
    Records (log ++ events) (e.recordAll events) := by
  induction events generalizing log e with
  | nil => simpa using h
  | cons event events ih =>
    rw [List.append_cons]
    exact ih (h.record event)

/-- Only recording touches the log. -/
theorem Records.change (h : Records log e) (hchange : e.Change news core) :
    Records (log ++ news) (core.recordAll news) := by
  refine Records.recordAll ?_ news
  obtain ⟨hevents, hdropped⟩ := h
  cases hchange with
  | _ => exact ⟨hevents, hdropped⟩

theorem Reaches.records {first : Execution} {earlier : List Execution} {told : List Event}
    (h : Reaches first earlier told e) {k : Kernel} {v : Value}
    (hstart : Execution.start k v = .ok first) : Records told e := by
  induction h with
  | start =>
    obtain rfl := eq_of_start hstart
    exact ⟨rfl, rfl⟩
  | move _ hchange ih => exact ih.change hchange

/-! ## Replay -/

section

variable {k : Kernel} {v : Value} {first : Execution} (hstart : start k v = .ok first)
  (operations : List Operation)

include hstart

/-- Every recorded event fits those before it, also if later ones were dropped. -/
theorem coherent_performAll :
    Coherent v.digest (first.performAll operations).events.toList := by
  obtain ⟨earlier, told, hreaches⟩ := reaches_performAll first operations
  rw [(hreaches.records hstart).events_eq]
  exact (hreaches.replays hstart).coherent.take maxEvents

/-- Whatever the operations were, a log from which nothing was dropped is coherent and replays to
the digest, the steps, the evidence and the status of the execution. -/
theorem performAll_replays (hdropped : (first.performAll operations).dropped = 0) :
    Replays v.digest (first.performAll operations).events.toList (first.performAll operations) := by
  obtain ⟨earlier, told, hreaches⟩ := reaches_performAll first operations
  obtain ⟨hevents, hcount⟩ := hreaches.records hstart
  have hlength : told.length ≤ maxEvents := by omega
  rw [hevents, List.take_of_length_le hlength]
  exact hreaches.replays hstart

end

/-- A run that rewrites and then stalls, a fix that puts the first value back, and the end. -/
theorem performAll_replays_fixed :
    ∃ first, start ⟨⟨[⟨"next", .str "a", .str "b"⟩]⟩, {}⟩ (.str "a") = .ok first ∧
      (first.performAll [.run 5, .fix (.str "a"), .terminate]).dropped = 0 ∧
      Replays (Value.str "a").digest
        (first.performAll [.run 5, .fix (.str "a"), .terminate]).events.toList
        (first.performAll [.run 5, .fix (.str "a"), .terminate]) :=
  ⟨_, rfl, by decide +kernel, performAll_replays rfl _ (by decide +kernel)⟩

end Execution

end TreeReduction
