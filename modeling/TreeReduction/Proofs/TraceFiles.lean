import TreeReduction.Proofs.Lockstep
import TreeReduction.Proofs.Performing
import TreeReduction.Proofs.Refusals
import TreeReduction.Proofs.TraceLines

set_option autoImplicit false

/-!
# The trace file of a run

A run that writes its trace leaves nothing out of it (`Surroundings.run_writes_whole_trace`). Its
budget is cut down to 50000 steps, and with no more than three events for a step at its end there is
always room in the log. A step whose result broke the limits leaves no event, but ends the run, so
the events there are numbered without a gap and the file can be read back.

What the command prints and where it writes does not depend on the format. So the two formats are
those of one trace, and the checksum in the report is that of the lines, whichever was written.
-/

namespace TreeReduction

/-! ## Runs of a kernel -/

namespace Kernel

variable (k : Kernel)

theorem length_runFrom_le (budget index : Nat) (v : Value) (before : Digest) :
    (k.runFrom budget index v before).trace.length ≤ budget := by
  induction budget generalizing index v before with
  | zero => exact Nat.le_refl 0
  | succ budget ih =>
    unfold runFrom
    cases k.apply v before with
    | reduced id next after => exact Nat.succ_le_succ (ih (index + 1) next after)
    | stalled reason => exact Nat.succ_le_succ (Nat.zero_le budget)
    | exhausted resource id => exact Nat.succ_le_succ (Nat.zero_le budget)

/-- The events of a run are numbered without a gap. -/
theorem map_index_runFrom (budget index : Nat) (v : Value) (before : Digest) :
    (k.runFrom budget index v before).trace.map (·.index) =
      List.range' index (k.runFrom budget index v before).trace.length := by
  induction budget generalizing index v before with
  | zero => rfl
  | succ budget ih =>
    unfold runFrom
    cases k.apply v before with
    | reduced id next after => exact congrArg (index :: ·) (ih (index + 1) next after)
    | stalled reason => rfl
    | exhausted resource id => rfl

end Kernel

/-! ## Runs of a fresh execution -/

namespace Execution

/-- The trace of an execution is all there, with its events numbered from zero. It is read back from
its binary form, and its lines list it. -/
structure WholeTrace (e : Execution) : Prop where
  dropped_eq : e.dropped = 0
  indices_eq : e.trace.map (·.index) = List.range e.trace.length
  decode_eq : Trace.decode (Trace.encode e.trace) = .ok e.trace
  lists : Trace.Lists (Trace.lines e.trace).toUTF8 e.trace

/-- The trace of an execution begins that of the run it mirrors. -/
theorem Mirrors.trace_isPrefix {e : Execution} {r : Run} (h : e.Mirrors r) :
    e.trace <+: r.trace := by
  cases hoverrun : r.halt.isOverrun with
  | false => exact h.trace_eq hoverrun ▸ List.prefix_refl _
  | true =>
    obtain ⟨id, htrace⟩ := h.trace_of_overrun hoverrun
    exact htrace ▸ List.prefix_append _ _

/-- A fresh execution mirrors a run of its kernel, which it is run for, and drops no event. -/
theorem mirrors_run {k : Kernel} {v : Value} {first e : Execution} {halt : Halt} {maxSteps : Nat}
    (hmaxSteps : maxSteps ≤ 50000) (hstart : start k v = .ok first)
    (hrun : first.run maxSteps = (.ok halt, e)) :
    e.dropped = 0 ∧ ∃ r, e.Mirrors r ∧ r.trace = (k.runFrom maxSteps 0 v v.digest).trace := by
  have hinStep := inStep_start hstart
  rw [run_of_active hinStep.status_eq] at hrun
  obtain rfl := eq_of_start hstart
  obtain ⟨-, rfl⟩ := Prod.mk.inj hrun
  have hroom : 0 + maxSteps + 2 ≤ maxEvents := by
    rw [maxEvents]
    omega
  obtain ⟨-, hdropped, hmirrors⟩ := mirrors_runActive maxSteps hinStep hroom
  exact ⟨hdropped, _, hmirrors, rfl⟩

/-- A fresh execution that is run for no more than 50000 steps has its whole trace. -/
theorem wholeTrace_run {k : Kernel} {v : Value} {first e : Execution} {halt : Halt} {maxSteps : Nat}
    (hids : ∀ id ∈ k.catalog.ids, id.utf8ByteSize < 2 ^ 64) (hmaxSteps : maxSteps ≤ 50000)
    (hstart : start k v = .ok first) (hrun : first.run maxSteps = (.ok halt, e)) :
    e.steps ≤ maxSteps ∧ e.WholeTrace := by
  obtain ⟨hdropped, r, hmirrors, htrace⟩ := mirrors_run hmaxSteps hstart hrun
  have hsteps : e.steps ≤ maxSteps := by
    rw [hmirrors.steps_eq, htrace]
    exact k.length_runFrom_le maxSteps 0 v v.digest
  have hlength : e.trace.length ≤ maxSteps :=
    (hmirrors.trace_isPrefix.length_le.trans_eq hmirrors.steps_eq.symm).trans hsteps
  have hindices : e.trace.map (·.index) = List.range e.trace.length := by
    obtain ⟨rest, hrest⟩ := hmirrors.trace_isPrefix
    have hrange := k.map_index_runFrom maxSteps 0 v v.digest
    rw [← htrace, ← hrest, List.map_append, List.length_append, ← List.range_eq_range',
      List.range_add] at hrange
    exact (List.append_inj hrange (by simp)).1
  have hstorable : ∀ step ∈ e.trace, Trace.Storable step := by
    have hperform : first.performAll [.run maxSteps] = e := congrArg Prod.snd hrun
    exact hperform ▸ storable_of_mem_trace hstart [.run maxSteps] hids
  refine ⟨hsteps, hdropped, hindices, ?_, Trace.lists_lines fun step h => (hstorable step h).index_lt⟩
  rw [Trace.decode_encode_eq_ok_iff (by omega) hstorable]
  exact ⟨by rw [Trace.maxEvents]; omega, hindices⟩

end Execution

/-! ## What the log does not tell -/

/-- The message that a trace is not all there. -/
def truncationMessage : String := "event log full, trace is truncated"

/-- No message of a log says that a trace is not all there. -/
def Log.Untruncated (log : Log) : Prop :=
  ∀ entry ∈ log, entry.message ≠ truncationMessage

namespace Log

theorem untruncated_nil : Untruncated [] := by
  simp [Untruncated]

theorem Untruncated.append {log news : Log} (h : log.Untruncated) (hnews : news.Untruncated) :
    (log ++ news).Untruncated :=
  List.forall_mem_append.2 ⟨h, hnews⟩

theorem untruncated_one {least level : Severity} {message : String}
    {fields : List (String × String)} (h : message ≠ truncationMessage) :
    (Log.one least level message fields).Untruncated := by
  unfold one
  split
  · exact List.forall_mem_singleton.2 h
  · exact untruncated_nil

end Log

open Log

theorem Kernel.untruncated_phaseLog (least : Severity) (k : Kernel) (v : Value) (before : Digest) :
    (k.phaseLog least v before).Untruncated := by
  unfold phaseLog
  split
  · intro entry hentry
    obtain ⟨phase, -, rfl⟩ := List.mem_map.1 hentry
    show "kernel phase" ≠ truncationMessage
    decide
  · exact untruncated_nil

namespace Execution

theorem untruncated_enterStallLog (least : Severity) (e : Execution) (reason : StallReason) :
    (e.enterStallLog least reason).Untruncated := by
  unfold enterStallLog
  simp only
  split
  · exact untruncated_one (by decide)
  · exact untruncated_one (by decide)

theorem untruncated_advanceActiveLog (least : Severity) (e : Execution) :
    (e.advanceActiveLog least).Untruncated := by
  refine (e.kernel.untruncated_phaseLog least e.value e.digest).append ?_
  cases e.kernel.apply e.value e.digest with
  | reduced id next after => exact untruncated_one (by decide)
  | stalled reason => exact e.untruncated_enterStallLog least reason
  | exhausted resource id => exact untruncated_one (by decide)

theorem untruncated_runActiveLog (least : Severity) (budget : Nat) (e : Execution) :
    (e.runActiveLog least budget).Untruncated := by
  induction budget generalizing e with
  | zero => exact untruncated_nil
  | succ budget ih =>
    refine (e.untruncated_advanceActiveLog least).append ?_
    split
    · exact ih _
    · exact untruncated_nil

theorem untruncated_runLog (least : Severity) (e : Execution) (maxSteps : Nat) :
    (e.runLog least maxSteps).Untruncated := by
  unfold runLog
  split
  · exact e.untruncated_runActiveLog least maxSteps
  · exact untruncated_nil

end Execution

/-! ## The command -/

namespace Surroundings

open Performing

/-- What a run of the command has come to before it writes anything: a seed and a value were read,
the value was let in, and the execution was run for the budget. -/
def RunsTo (around : Surroundings) (s : Settings) (path argument : String) (maxSteps : Option Nat)
    (log : Log) (halt : Halt) (e : Execution) (mid : Log) : Prop :=
  ∃ loaded v first, ∃ read : Log,
    Answers (around.seed s path) log loaded read ∧ Answers (around.value s argument) read v read ∧
      Execution.start ⟨loaded.catalog, s.limits⟩ v = .ok first ∧
        first.run (budget s maxSteps) = (.ok halt, e) ∧
          mid = read ++ first.runLog around.least (budget s maxSteps)

variable {around : Surroundings} {s : Settings} {json : Bool} {path argument out : String}
  {maxSteps : Option Nat} {format : TraceFormat} {log mid after : Log} {halt : Halt} {e : Execution}
  {effect : Effect}

theorem RunsTo.wholeTrace (h : RunsTo around s path argument maxSteps log halt e mid) :
    e.steps ≤ min (maxSteps.getD s.maxSteps) 50000 ∧ e.WholeTrace := by
  obtain ⟨loaded, v, first, read, hseed, -, hstart, hrun, -⟩ := h
  exact Execution.wholeTrace_run (utf8ByteSize_lt_of_seed hseed) (Nat.min_le_right _ _) hstart hrun

theorem RunsTo.untruncated (h : RunsTo around s path argument maxSteps log halt e mid) :
    ∃ news, mid = log ++ news ∧ news.Untruncated := by
  obtain ⟨loaded, v, first, read, hseed, -, -, -, rfl⟩ := h
  obtain ⟨place, -, -, -, -, rfl⟩ := answers_seed_iff.1 hseed
  refine ⟨_, List.append_assoc .., Log.Untruncated.append (.append ?_ ?_) ?_⟩
  · exact Log.untruncated_one (by decide)
  · exact Log.untruncated_one (by decide)
  · exact first.untruncated_runLog around.least (budget s maxSteps)

/-- What the command prints about a run. -/
def runReport (json : Bool) (halt : Halt) (e : Execution) : String :=
  if json then Report.runJson halt e else Report.runLines halt e

theorem answers_run_iff :
    Answers (around.run s json path argument maxSteps (some out) format) log effect after ↔
      ∃ halt e mid w, RunsTo around s path argument maxSteps log halt e mid ∧
        around.writing out (traceBytes e.trace format) = .ok w ∧
          effect = { printed := runReport json halt e, written := some w } ∧
            after = mid ++ Log.one around.least .info "trace written"
              [("output", w.place.text),
                ("bytes", toString (traceBytes e.trace format).size)] := by
  simp only [run, answers_bind_iff, answers_orFault_iff, answers_tell_iff]
  constructor
  · rintro ⟨loaded, read, hseed, v, _, hvalue, first, _, ⟨hstart, rfl⟩, halt, _, ⟨hhalt, rfl⟩, -, _,
      rfl, hwrites⟩
    obtain ⟨_, -, -, rfl⟩ := answers_value_iff.1 hvalue
    have hruns : RunsTo around s path argument maxSteps log halt (first.run (budget s maxSteps)).2 _ :=
      ⟨loaded, v, first, _, hseed, hvalue, hstart, Prod.ext hhalt rfl, rfl⟩
    rw [if_neg (by simp [hruns.wholeTrace.2.dropped_eq])] at hwrites
    simp only [answers_bind_iff, answers_orFault_iff, answers_report_iff, answers_pure_iff]
      at hwrites
    obtain ⟨w, _, ⟨hw, rfl⟩, -, _, rfl, rfl, rfl⟩ := hwrites
    exact ⟨halt, _, _, w, hruns, hw, rfl, rfl⟩
  · rintro ⟨halt, e, mid, w, hruns, hw, rfl, rfl⟩
    have hdropped := hruns.wholeTrace.2.dropped_eq
    obtain ⟨loaded, v, first, read, hseed, hvalue, hstart, hrun, rfl⟩ := hruns
    refine ⟨loaded, read, hseed, v, read, hvalue, first, read, ⟨hstart, rfl⟩, halt, read,
      ⟨congrArg Prod.fst hrun, rfl⟩, (), _, rfl, ?_⟩
    rw [hrun, if_neg (by simp [hdropped])]
    simp only [answers_bind_iff, answers_orFault_iff, answers_report_iff, answers_pure_iff]
    exact ⟨w, _, ⟨hw, rfl⟩, (), _, rfl, rfl, rfl⟩

/-- Whether a file can be written, and where, does not depend on what it is to hold. -/
theorem writing_other {content : ByteArray} {w : Writing}
    (h : around.writing out content = .ok w) (other : ByteArray) :
    w.content = content ∧ around.writing out other = .ok ⟨w.place, other⟩ := by
  obtain ⟨directory, name, hplace, hwritable, rfl⟩ := writing_eq_ok_iff.1 h
  exact ⟨rfl, writing_eq_ok_iff.2 ⟨directory, name, hplace, hwritable, rfl⟩⟩

/-- A report of a run, in lines or in JSON, that tells of so many steps, of a checksum of the trace
and of no event that is missing from it. -/
inductive TellsRun (steps : Nat) (checksum : String) : (json : Bool) → String → Prop where
  | lines (value halt : String) (evidence : List Evidence) :
      TellsRun steps checksum false (Report.ofLines
        ([value, "", s!"Halt:           {halt}", s!"Steps:          {steps}",
          s!"Trace checksum: {checksum}"] ++ Report.evidenceLines evidence))
  | json (value hash stalled halt evidence : Json) :
      TellsRun steps checksum true (Report.ofJson (.object [("value", value), ("hash", hash),
        ("steps", .nat steps), ("stalled", stalled), ("halt", halt),
        ("trace_checksum", .str checksum), ("trace_truncated", .bool false),
        ("evidence", evidence)]))

theorem tellsRun_runReport (json : Bool) (halt : Halt) {e : Execution} (h : e.dropped = 0) :
    TellsRun e.steps (Digest.ofContent (traceBytes e.trace .lines)).hex json
      (runReport json halt e) := by
  cases json with
  | false =>
    have hlines : runReport false halt e = Report.runLines halt e := rfl
    rw [hlines, Report.runLines, h, Report.droppedLines, List.append_nil]
    exact .lines ..
  | true =>
    have hjson : runReport true halt e = Report.runJson halt e := rfl
    rw [hjson, Report.runJson, h]
    exact .json ..

/-- A run that succeeds with a path for its trace writes all of it. No event was dropped, and
neither the report nor the log says so. The steps that are reported are at most as many as were
allowed, and never more than 50000. In either format the command succeeds with the same report and
puts the trace in the same place. The binary file is read back as the events that the lines list, no
other events are listed there, and they are numbered from zero. The checksum in the report is that
of the lines. -/
theorem run_writes_whole_trace
    (h : Answers (around.run s json path argument maxSteps (some out) format) log effect after) :
    ∃ halt e mid place, RunsTo around s path argument maxSteps log halt e mid ∧ e.dropped = 0 ∧
      e.steps ≤ min (maxSteps.getD s.maxSteps) 50000 ∧
      TellsRun e.steps (Digest.ofContent (traceBytes e.trace .lines)).hex json effect.printed ∧
      (∃ news, after = log ++ news ∧
        ∀ entry ∈ news, entry.message ≠ "event log full, trace is truncated") ∧
      effect.written = some ⟨place, traceBytes e.trace format⟩ ∧
      (∀ other, ∃ after', Answers
        (around.run s json path argument maxSteps (some out) other) log
          { printed := effect.printed, written := some ⟨place, traceBytes e.trace other⟩ } after') ∧
      Trace.decode (traceBytes e.trace .binary).data.toList = .ok e.trace ∧
      (∀ t, Trace.Lists (traceBytes e.trace .lines) t ↔ t = e.trace) ∧
      e.trace.map (·.index) = List.range e.trace.length := by
  obtain ⟨halt, e, mid, w, hruns, hw, rfl, rfl⟩ := answers_run_iff.1 h
  obtain ⟨hsteps, hwhole⟩ := hruns.wholeTrace
  obtain ⟨news, rfl, hnews⟩ := hruns.untruncated
  have hwriting := writing_other hw
  refine ⟨halt, e, _, w.place, hruns, hwhole.dropped_eq, hsteps,
    tellsRun_runReport json halt hwhole.dropped_eq, ⟨_, List.append_assoc .., ?_⟩, ?_, ?_,
    hwhole.decode_eq, fun t => ⟨fun ht => ht.unique hwhole.lists, ?_⟩, hwhole.indices_eq⟩
  · exact hnews.append (Log.untruncated_one (by decide))
  · rw [← (hwriting .empty).1]
  · intro other
    exact ⟨_, answers_run_iff.2 ⟨halt, e, _, _, hruns, (hwriting _).2, rfl, rfl⟩⟩
  · rintro rfl
    exact hwhole.lists

/-- A file with a seed of one projection, which puts a list around any value. Its id is not ASCII. -/
def layering : Surroundings :=
  { files := .ofList ⟨[]⟩ [(⟨["seed"]⟩, .file "[[\"mured.seed/v1\",\"n\",\"1\",\"\",[]],
      [[\"\\u00e9\",\x7b\"var\":\"x\"\x7d,[\x7b\"var\":\"x\"\x7d]]],
      \"b4111301937208cd5ea289fbb29b73944e5631ab02fcde55bb38d962f1d12e1d\"]".toUTF8)] }

/-- A run that asks for more steps than there may be and ends with a result that is too deep. -/
theorem run_writes_whole_trace_overrun :
    let command := layering.run { limits := { maxDepth := 2 } } false "seed" "1" (some 70000)
      (some "trace") .binary
    ∃ effect after, Answers command [] effect after ∧
      ∃ (e : Execution) (place : Location),
        effect.written = some ⟨place, traceBytes e.trace .binary⟩ ∧ e.dropped = 0 ∧
          e.steps ≤ 50000 ∧
            Trace.decode (traceBytes e.trace .binary).data.toList = .ok e.trace := by
  intro command
  have hok : (result command []).1.isOk = true := by decide +kernel
  obtain ⟨effect, after, hanswers⟩ := exists_answers_of_isOk hok
  obtain ⟨halt, e, mid, place, -, hdropped, hsteps, -, -, hwritten, -, hdecode, -⟩ :=
    run_writes_whole_trace hanswers
  exact ⟨effect, after, hanswers, e, place, hwritten, hdropped,
    hsteps.trans (Nat.min_le_right _ _), hdecode⟩

end Surroundings

end TreeReduction
