import Mathlib.Data.List.Chain
import TreeReduction.Execution

set_option autoImplicit false

/-!
# Moves of an execution

What operations do to an execution, one move at a time. `Execution.Change` lists all that a move can
do to it and the events that the move tells, the log left aside; the log only takes the events in
(`Execution.recordAll`). Every operation, a run of many steps too, is a sequence of such moves
(`Execution.isChain_path`), so what every move preserves holds in every execution that operations
lead to (`Execution.reaches_of_path`).
-/

namespace TreeReduction

/-- What a caller may ask of an execution. -/
inductive Operation where
  | advance
  | run (maxSteps : Nat)
  | stall (pattern : String)
  | fix (replacement : Value)
  | fixChecked (expected : Digest) (replacement : Value)
  | terminate

namespace Execution

/-! ## Operations -/

/-- The execution after an operation, also after one that was refused. -/
def perform (e : Execution) : Operation → Execution
  | .advance => e.advance.2
  | .run maxSteps => (e.run maxSteps).2
  | .stall pattern => (e.stall pattern).2
  | .fix replacement => (e.fix replacement).2
  | .fixChecked expected replacement => (e.fixChecked expected replacement).2
  | .terminate => e.terminate.2

/-- The execution after several operations. -/
def performAll (e : Execution) (operations : List Operation) : Execution :=
  operations.foldl perform e

/-- An active execution after each of up to `budget` steps, and after the budget is spent. -/
def runStates : (budget : Nat) → Execution → List Execution
  | 0, e => [(e.runActive 0).2]
  | budget + 1, e =>
    match e.advanceActive with
    | (.reduced _, next) => next :: runStates budget next
    | (_, next) => [next]

/-- The executions that an operation leads through, the last of them the one after it. Only a run
takes more than one move. -/
def states (e : Execution) : Operation → List Execution
  | .run maxSteps => if e.status = .active then e.runStates maxSteps else [e]
  | operation => [e.perform operation]

/-- The executions that operations lead through, one move after the other. -/
def path (e : Execution) : List Operation → List Execution
  | [] => []
  | operation :: rest => e.states operation ++ (e.perform operation).path rest

/-- Where an execution starts. -/
theorem eq_of_start {k : Kernel} {v : Value} {e : Execution} (h : start k v = .ok e) :
    e = { kernel := k, value := v, digest := v.digest } := by
  unfold start at h
  split at h
  · simp at h
  · exact (Except.ok.inj h).symm

/-! ## Recording -/

/-- Records several events. -/
def recordAll (e : Execution) (events : List Event) : Execution :=
  events.foldl record e

@[simp]
theorem recordAll_nil (e : Execution) : e.recordAll [] = e := rfl

@[simp]
theorem recordAll_cons (e : Execution) (event : Event) (events : List Event) :
    e.recordAll (event :: events) = (e.record event).recordAll events := rfl

/-- Recording touches nothing but the log. -/
theorem record_eq (e : Execution) (event : Event) :
    e.record event =
      { e with
        events := if e.events.size < maxEvents then e.events.push event else e.events
        dropped := if e.events.size < maxEvents then e.dropped else e.dropped + 1 } := by
  unfold record
  split <;> rfl

theorem recordAll_eq (e : Execution) (events : List Event) :
    e.recordAll events =
      { e with
        events := (e.recordAll events).events
        dropped := (e.recordAll events).dropped } := by
  induction events generalizing e with
  | nil => rfl
  | cons event events ih =>
    rw [recordAll_cons, ih, record_eq]

section Fields

variable (e : Execution) (events : List Event)

@[simp]
theorem recordAll_kernel : (e.recordAll events).kernel = e.kernel := by rw [recordAll_eq]

@[simp]
theorem recordAll_value : (e.recordAll events).value = e.value := by rw [recordAll_eq]

@[simp]
theorem recordAll_digest : (e.recordAll events).digest = e.digest := by rw [recordAll_eq]

@[simp]
theorem recordAll_status : (e.recordAll events).status = e.status := by rw [recordAll_eq]

@[simp]
theorem recordAll_stallReason : (e.recordAll events).stallReason = e.stallReason := by
  rw [recordAll_eq]

@[simp]
theorem recordAll_steps : (e.recordAll events).steps = e.steps := by rw [recordAll_eq]

@[simp]
theorem recordAll_memory : (e.recordAll events).memory = e.memory := by rw [recordAll_eq]

@[simp]
theorem recordAll_evidence : (e.recordAll events).evidence = e.evidence := by rw [recordAll_eq]

end Fields

/-! ## Moves -/

/-- The evidence that a stall of a pattern gives, if it gives any. -/
def evidence? (e : Execution) (pattern : String) : Option Evidence :=
  if e.remembers pattern then some (.ofSecondStall e.digest pattern) else none

theorem evidence?_eq_some_iff {e : Execution} {pattern : String} {evidence : Evidence} :
    e.evidence? pattern = some evidence ↔
      e.remembers pattern = true ∧ evidence = ⟨e.digest, pattern, "second_independent_stall"⟩ := by
  unfold evidence?
  split
  · rename_i hrepeated
    simp [hrepeated, Evidence.ofSecondStall, eq_comm]
  · rename_i hfirst
    simp [hfirst]

/-- The events of a stall. -/
def stallEvents (e : Execution) (reason : StallReason) : List Event :=
  .stall e.steps e.digest reason.patternId ::
    ((e.evidence? reason.patternId).map Event.closure).toList

/-- An execution that stalls, its log left aside. -/
def stalled (e : Execution) (reason : StallReason) : Execution :=
  { e with
    status := .stalled
    stallReason := some reason
    memory := Entries.insert reason.patternId e.digest e.memory
    evidence := e.evidence ++ (e.evidence? reason.patternId).toArray }

/-- What one move does to an execution, the log left aside, and the events that it tells. -/
inductive Change (e : Execution) : List Event → Execution → Prop where
  /-- an operation was refused -/
  | refused : Change e [] e
  /-- a step made a new value -/
  | reduced {id : String} {next : Value} {after : Digest} (hactive : e.status = .active)
      (happly : e.kernel.apply e.value e.digest = .reduced id next after) :
      Change e [.step ⟨e.steps, e.digest, after, some id⟩]
        { e with value := next, digest := after, steps := e.steps + 1, memory := [] }
  /-- a step changed nothing -/
  | stuck {reason : StallReason} (hactive : e.status = .active)
      (happly : e.kernel.apply e.value e.digest = .stalled reason) :
      Change e
        (.step ⟨e.steps, e.digest, e.digest, reason.fired?⟩ ::
          { e with steps := e.steps + 1 }.stallEvents reason)
        ({ e with steps := e.steps + 1 }.stalled reason)
  /-- a step made a value that breaks the limits -/
  | exceeded {resource : Resource} {id : String} (hactive : e.status = .active)
      (happly : e.kernel.apply e.value e.digest = .exhausted resource id) :
      Change e [.exhausted e.steps resource] { e with steps := e.steps + 1 }
  /-- a run spent its budget -/
  | spent (hactive : e.status = .active) : Change e [.exhausted e.steps .steps] e
  /-- the caller reported a stall -/
  | reported {pattern : String} (hactive : e.status = .active) :
      Change e (e.stallEvents (.external pattern)) (e.stalled (.external pattern))
  /-- the caller put a value with the same digest in place -/
  | kept {replacement : Value} (hstalled : e.status = .stalled)
      (haccept : e.kernel.accept replacement = .ok ()) (hsame : replacement.digest = e.digest) :
      Change e [.fix e.steps e.digest e.digest] { e with status := .active, stallReason := none }
  /-- the caller put another value in place -/
  | fixed {replacement : Value} (hstalled : e.status = .stalled)
      (haccept : e.kernel.accept replacement = .ok ()) (hother : replacement.digest ≠ e.digest) :
      Change e [.fix e.steps e.digest replacement.digest]
        { e with
          value := replacement
          digest := replacement.digest
          memory := []
          status := .active
          stallReason := none }
  /-- the caller closed the execution -/
  | closed (hopen : e.status ≠ .terminal) :
      Change e [.terminal e.digest] { e with status := .terminal }

theorem Change.kernel_eq {e core : Execution} {news : List Event} (h : e.Change news core) :
    core.kernel = e.kernel := by
  cases h with
  | _ => rfl

/-- One move, its events recorded. -/
def Move (e next : Execution) : Prop :=
  ∃ news core, e.Change news core ∧ next = core.recordAll news

theorem Move.refused (e : Execution) : e.Move e :=
  ⟨[], e, .refused, rfl⟩

theorem Move.kernel_eq {e next : Execution} (h : e.Move next) : next.kernel = e.kernel := by
  obtain ⟨news, core, hchange, rfl⟩ := h
  rw [recordAll_kernel, hchange.kernel_eq]

/-! ## What the operations do -/

theorem enterStall_eq (e : Execution) (reason : StallReason) :
    e.enterStall reason =
      (e.evidence? reason.patternId, (e.stalled reason).recordAll (e.stallEvents reason)) := by
  unfold enterStall stalled stallEvents evidence?
  cases hrepeated : e.remembers reason.patternId <;> simp [record_eq, hrepeated]

theorem stallEvents_record (e : Execution) (event : Event) (reason : StallReason) :
    (e.record event).stallEvents reason = e.stallEvents reason := by
  rw [record_eq]
  rfl

theorem stalled_record (e : Execution) (event : Event) (reason : StallReason) :
    (e.record event).stalled reason = (e.stalled reason).record event := by
  rw [record_eq, record_eq]
  rfl

theorem advanceActive_of_reduced {e : Execution} {id : String} {next : Value} {after : Digest}
    (h : e.kernel.apply e.value e.digest = .reduced id next after) :
    e.advanceActive =
      (.reduced id,
        { e with value := next, digest := after, steps := e.steps + 1, memory := [] }.recordAll
          [.step ⟨e.steps, e.digest, after, some id⟩]) := by
  unfold advanceActive
  simp [h, record_eq, replace]

theorem advanceActive_of_stalled {e : Execution} {reason : StallReason}
    (h : e.kernel.apply e.value e.digest = .stalled reason) :
    e.advanceActive =
      (.stalled reason (e.evidence? reason.patternId),
        ({ e with steps := e.steps + 1 }.stalled reason).recordAll
          (.step ⟨e.steps, e.digest, e.digest, reason.fired?⟩ ::
            { e with steps := e.steps + 1 }.stallEvents reason)) := by
  unfold advanceActive
  simp only [h, enterStall_eq, stallEvents_record, stalled_record, recordAll_cons]
  rw [record_eq]
  rfl

theorem advanceActive_of_exhausted {e : Execution} {resource : Resource} {id : String}
    (h : e.kernel.apply e.value e.digest = .exhausted resource id) :
    e.advanceActive =
      (.exhausted resource id,
        { e with steps := e.steps + 1 }.recordAll [.exhausted e.steps resource]) := by
  unfold advanceActive
  simp [h, record_eq]

/-- A step of an active execution is a move. -/
theorem move_advanceActive {e : Execution} (hactive : e.status = .active) :
    e.Move e.advanceActive.2 := by
  cases happly : e.kernel.apply e.value e.digest with
  | reduced id next after =>
    rw [advanceActive_of_reduced happly]
    exact ⟨_, _, .reduced hactive happly, rfl⟩
  | stalled reason =>
    rw [advanceActive_of_stalled happly]
    exact ⟨_, _, .stuck hactive happly, rfl⟩
  | exhausted resource id =>
    rw [advanceActive_of_exhausted happly]
    exact ⟨_, _, .exceeded hactive happly, rfl⟩

/-- A step that tells of a reduction leads to the value that the kernel reduced to. -/
theorem apply_of_advanceActive_reduced {e next : Execution} {id : String}
    (h : e.advanceActive = (.reduced id, next)) :
    e.kernel.apply e.value e.digest = .reduced id next.value next.digest ∧
      next.status = e.status := by
  cases happly : e.kernel.apply e.value e.digest with
  | reduced id' value after =>
    rw [advanceActive_of_reduced happly, Prod.mk.injEq, Transition.reduced.injEq] at h
    obtain ⟨rfl, rfl⟩ := h
    rw [recordAll_value, recordAll_digest, recordAll_status]
    exact ⟨rfl, rfl⟩
  | stalled reason => simp [advanceActive_of_stalled happly] at h
  | exhausted resource id' => simp [advanceActive_of_exhausted happly] at h

/-- After a step that made a new value the execution is active still. -/
theorem status_of_reduced {e next : Execution} {id : String} (hactive : e.status = .active)
    (h : e.advanceActive = (.reduced id, next)) : next.status = .active :=
  (apply_of_advanceActive_reduced h).2.trans hactive

theorem move_resume {e : Execution} {replacement : Value} (hstalled : e.status = .stalled)
    (haccept : e.kernel.accept replacement = .ok ()) : e.Move (e.resume replacement) := by
  unfold resume
  by_cases hsame : replacement.digest = e.digest
  · refine ⟨_, _, .kept hstalled haccept hsame, ?_⟩
    simp [record_eq, hsame]
  · refine ⟨_, _, .fixed hstalled haccept hsame, ?_⟩
    simp [record_eq, replace, hsame]

theorem require_eq_ok_iff (e : Execution) (operation : String) (status : Status) :
    e.require operation status = .ok () ↔ e.status = status := by
  unfold require
  split
  · rename_i h
    simp [h]
  · rename_i h
    simp [h]

/-- An operation that tells of a reduction leads to the value that the kernel reduced to. -/
theorem apply_of_advance_reduced {e next : Execution} {id : String}
    (h : e.advance = (.ok (.reduced id), next)) :
    e.kernel.apply e.value e.digest = .reduced id next.value next.digest := by
  unfold advance at h
  split at h
  · simp at h
  · rw [Prod.mk.injEq, Except.ok.injEq] at h
    exact (apply_of_advanceActive_reduced (Prod.ext h.1 h.2)).1

theorem move_fix (e : Execution) (replacement : Value) : e.Move (e.fix replacement).2 := by
  unfold fix
  split
  · exact .refused e
  · rename_i hrequire
    split
    · exact .refused e
    · rename_i haccept
      exact move_resume ((e.require_eq_ok_iff _ _).1 hrequire) haccept

/-- Every operation but a run is one move. -/
theorem move_perform (e : Execution) {operation : Operation}
    (h : ∀ maxSteps, operation ≠ .run maxSteps) : e.Move (e.perform operation) := by
  cases operation with
  | run maxSteps => exact absurd rfl (h maxSteps)
  | advance =>
    rw [perform, advance]
    split
    · exact .refused e
    · rename_i hrequire
      exact move_advanceActive ((e.require_eq_ok_iff _ _).1 hrequire)
  | stall pattern =>
    rw [perform, stall]
    split
    · exact .refused e
    · rename_i hrequire
      rw [enterStall_eq]
      exact ⟨_, _, .reported ((e.require_eq_ok_iff _ _).1 hrequire), rfl⟩
  | fix replacement => exact e.move_fix replacement
  | fixChecked expected replacement =>
    rw [perform, fixChecked]
    split
    · exact .refused e
    · split
      · exact e.move_fix replacement
      · exact .refused e
  | terminate =>
    rw [perform, terminate]
    split
    · exact .refused e
    · rename_i hopen
      exact ⟨_, _, .closed hopen, rfl⟩

/-! ## Runs -/

theorem isChain_runStates {e : Execution} (budget : Nat) (hactive : e.status = .active) :
    List.IsChain Move (e :: e.runStates budget) := by
  induction budget generalizing e with
  | zero => exact List.isChain_pair.2 ⟨_, _, .spent hactive, rfl⟩
  | succ budget ih =>
    have hmove := move_advanceActive hactive
    unfold runStates
    split
    · rename_i id next hadvance
      rw [hadvance] at hmove
      exact List.isChain_cons_cons.2 ⟨hmove, ih (status_of_reduced hactive hadvance)⟩
    · rename_i transition next hadvance
      rw [hadvance] at hmove
      exact List.isChain_pair.2 hmove

/-- The last execution that a run leads through is the one after it. -/
theorem getLast?_runStates (budget : Nat) (e : Execution) :
    (e.runStates budget).getLast? = some (e.runActive budget).2 := by
  induction budget generalizing e with
  | zero => rfl
  | succ budget ih =>
    unfold runStates runActive
    cases hadvance : e.advanceActive with
    | mk transition next =>
      cases transition with
      | reduced id => simp [List.getLast?_cons, ih]
      | stalled reason evidence => rfl
      | exhausted resource id => rfl

/-! ## Paths -/

theorem isChain_states (e : Execution) (operation : Operation) :
    List.IsChain Move (e :: e.states operation) := by
  cases operation with
  | run maxSteps =>
    by_cases hactive : e.status = .active
    · rw [states, if_pos hactive]
      exact isChain_runStates maxSteps hactive
    · rw [states, if_neg hactive]
      exact List.isChain_pair.2 (.refused e)
  | _ => exact List.isChain_pair.2 (e.move_perform (by simp))

theorem getLast?_states (e : Execution) (operation : Operation) :
    (e.states operation).getLast? = some (e.perform operation) := by
  cases operation with
  | run maxSteps =>
    by_cases hactive : e.status = .active
    · have hrequire := (e.require_eq_ok_iff "run" .active).2 hactive
      rw [states, if_pos hactive, perform, run, hrequire]
      exact getLast?_runStates maxSteps e
    · rw [states, if_neg hactive, perform, run, require, if_neg hactive]
      rfl
  | _ => rfl

/-- A path goes on by moves alone. -/
theorem isChain_path (e : Execution) (operations : List Operation) :
    List.IsChain Move (e :: e.path operations) := by
  induction operations generalizing e with
  | nil => exact List.isChain_singleton e
  | cons operation rest ih =>
    have hrest := List.isChain_cons.1 (ih (e.perform operation))
    rw [path, ← List.cons_append, List.isChain_append]
    refine ⟨e.isChain_states operation, hrest.2, ?_⟩
    intro last hlast next hnext
    rw [List.getLast?_cons, e.getLast?_states] at hlast
    obtain rfl : e.perform operation = last := by simpa using hlast
    exact hrest.1 next hnext

/-- Neighbours on a path are a move apart. -/
theorem move_of_path (e : Execution) (operations : List Operation) {before after : List Execution}
    {a b : Execution} (h : e :: e.path operations = before ++ a :: b :: after) : a.Move b := by
  have hchain := e.isChain_path operations
  rw [h, List.isChain_append_cons_cons] at hchain
  exact hchain.2.1

/-- A path ends in the execution after the operations. -/
theorem getLast?_path (e : Execution) (operations : List Operation) :
    (e :: e.path operations).getLast? = some (e.performAll operations) := by
  induction operations generalizing e with
  | nil => rfl
  | cons operation rest ih =>
    have hrest := ih (e.perform operation)
    rw [performAll, List.foldl_cons, ← performAll, ← hrest, path, ← List.cons_append,
      List.getLast?_append, List.getLast?_cons, List.getLast?_cons, e.getLast?_states]
    cases ((e.perform operation).path rest).getLast? <;> rfl

theorem performAll_mem_path (e : Execution) (operations : List Operation) :
    e.performAll operations ∈ e :: e.path operations :=
  List.mem_of_getLast? (e.getLast?_path operations)

/-! ## Reaching -/

/-- Moves lead from a first execution to another one. The executions before it and the events that
were told on the way stand in order, recorded or not. -/
inductive Reaches (first : Execution) : List Execution → List Event → Execution → Prop where
  | start : Reaches first [] [] first
  | move {earlier : List Execution} {told news : List Event} {e core : Execution}
      (h : Reaches first earlier told e) (hchange : e.Change news core) :
      Reaches first (earlier ++ [e]) (told ++ news) (core.recordAll news)

theorem Reaches.kernel_eq {first e : Execution} {earlier : List Execution} {told : List Event}
    (h : Reaches first earlier told e) : e.kernel = first.kernel := by
  induction h with
  | start => rfl
  | move _ hchange ih => rw [recordAll_kernel, hchange.kernel_eq, ih]

/-- Every execution of a path is reached through those before it. -/
theorem reaches_of_path (first : Execution) (operations : List Operation)
    {before after : List Execution} {e : Execution}
    (h : first :: first.path operations = before ++ e :: after) :
    ∃ told, Reaches first before told e := by
  induction before using List.reverseRecOn generalizing e after with
  | nil =>
    obtain rfl : first = e := by simpa using (List.cons.inj h).1
    exact ⟨[], .start⟩
  | append_singleton before last ih =>
    have hsplit : first :: first.path operations = before ++ last :: e :: after := by simpa using h
    obtain ⟨told, hlast⟩ := ih hsplit
    obtain ⟨news, core, hchange, rfl⟩ := first.move_of_path operations hsplit
    exact ⟨told ++ news, hlast.move hchange⟩

theorem reaches_of_mem_path (first : Execution) (operations : List Operation) {e : Execution}
    (h : e ∈ first :: first.path operations) : ∃ earlier told, Reaches first earlier told e := by
  obtain ⟨before, after, hsplit⟩ := List.append_of_mem h
  exact ⟨before, reaches_of_path first operations hsplit⟩

theorem reaches_performAll (first : Execution) (operations : List Operation) :
    ∃ earlier told, Reaches first earlier told (first.performAll operations) :=
  reaches_of_mem_path first operations (first.performAll_mem_path operations)

end Execution

end TreeReduction
