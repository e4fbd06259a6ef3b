import TreeReduction.Proofs.Entries
import TreeReduction.Proofs.Moves
import TreeReduction.Proofs.Steps

set_option autoImplicit false

/-!
# Evidence of closure

A stall gives evidence exactly when its pattern has stalled before and the value has had one digest
since (`Execution.evidence_iff_stalledSince`). The execution does not look back at its past to find
out: it asks a memory that is cleared whenever the digest changes. What carries the argument is that
the memory holds the digest in place under the patterns that have stalled since the last change, and
nothing else (`Execution.Remembers`).

Every move either changes the digest and clears the memory, or touches neither, or stalls
(`Execution.Change.memory_cases`).
-/

namespace TreeReduction.Execution

/-! ## Stalls on a path -/

/-- A move takes an execution into a stall of a pattern. -/
structure Stalls (a b : Execution) (pattern : String) : Prop where
  status_before : a.status ≠ .stalled
  status_after : b.status = .stalled
  pattern_eq : b.stallReason.map StallReason.patternId = some pattern

/-- Among executions in order, a pattern has stalled, and no move since then has changed the digest
of the value. -/
def StalledSince (earlier : List Execution) (pattern : String) : Prop :=
  ∃ before a b since, earlier = before ++ a :: b :: since ∧ Stalls a b pattern ∧
    ∀ e ∈ since, e.value.digest = b.value.digest

/-- The last of some executions comes after any move among them. -/
theorem last_mem_of_split {earlier before since : List Execution} {last a b : Execution}
    (h : earlier ++ [last] = before ++ a :: b :: since) : last ∈ b :: since := by
  have hlast : (before ++ a :: b :: since).getLast? = some last := by simp [← h]
  rw [List.append_cons, List.getLast?_append_of_ne_nil _ (by simp)] at hlast
  exact List.mem_of_getLast? hlast

/-- Whether a pattern has stalled since the last change is decided by the last move, unless that
keeps the digest and is no stall of the pattern. -/
theorem stalledSince_concat_iff {earlier : List Execution} {a b : Execution} {pattern : String} :
    StalledSince (earlier ++ [a] ++ [b]) pattern ↔
      Stalls a b pattern ∨
        (b.value.digest = a.value.digest ∧ StalledSince (earlier ++ [a]) pattern) := by
  constructor
  · rintro ⟨before, a', b', since, hsplit, hstalls, hsince⟩
    rcases List.eq_nil_or_concat since with rfl | ⟨since, last, rfl⟩
    · have hpair : earlier ++ [a, b] = before ++ [a', b'] := by simpa using hsplit
      obtain ⟨-, hpair⟩ := List.append_inj' hpair rfl
      simp only [List.cons.injEq, and_true] at hpair
      obtain ⟨rfl, rfl⟩ := hpair
      exact .inl hstalls
    · have hconcat : (earlier ++ [a]) ++ [b] = (before ++ a' :: b' :: since) ++ [last] := by
        simpa using hsplit
      obtain ⟨hfront, hlast⟩ := List.append_inj' hconcat rfl
      obtain rfl : b = last := by simpa using hlast
      have hkept : ∀ e ∈ b' :: since, e.value.digest = b'.value.digest :=
        List.forall_mem_cons.2 ⟨rfl, fun e he => hsince e (by simp [he])⟩
      have ha := hkept a (last_mem_of_split hfront)
      have hb := hsince b (by simp)
      exact .inr ⟨hb.trans ha.symm, before, a', b', since, hfront, hstalls,
        fun e he => hkept e (by simp [he])⟩
  · rintro (hstalls | ⟨hsame, before, a', b', since, hsplit, hstalls, hsince⟩)
    · exact ⟨earlier, a, b, [], by simp, hstalls, by simp⟩
    · have hkept : ∀ e ∈ b' :: since, e.value.digest = b'.value.digest :=
        List.forall_mem_cons.2 ⟨rfl, hsince⟩
      have ha := hkept a (last_mem_of_split hsplit)
      refine ⟨before, a', b', since ++ [b], by simp [hsplit], hstalls, ?_⟩
      rw [List.forall_mem_append, List.forall_mem_singleton]
      exact ⟨hsince, hsame.trans ha⟩

/-- A caller who reports a pattern while the execution is active makes it stall. -/
theorem stalls_perform {e : Execution} (hactive : e.status = .active) (pattern : String) :
    Stalls e (e.perform (.stall pattern)) pattern := by
  rw [perform, stall, (e.require_eq_ok_iff _ _).2 hactive, enterStall_eq]
  exact ⟨by simp [hactive], by simp [stalled], by simp [stalled, StallReason.patternId]⟩

/-! ## What a move does to the memory -/

variable {e core : Execution} {news : List Event}

/-- The digest of an execution is that of its value. -/
theorem Change.digest_eq (h : e.Change news core) (hdigest : e.digest = e.value.digest) :
    core.digest = core.value.digest := by
  cases h with
  | reduced hactive happly => exact (Kernel.digest_of_reduced happly).symm
  | fixed => rfl
  | _ => exact hdigest

/-- A move changes the digest and forgets all stalls, or keeps the digest and the memory, or
stalls. Only a stall may give evidence. -/
theorem Change.memory_cases (h : e.Change news core) :
    (core.digest ≠ e.digest ∧ core.memory = [] ∧ core.evidence = e.evidence ∧
      core.status = .active) ∨
    (core.digest = e.digest ∧ core.memory = e.memory ∧ core.evidence = e.evidence ∧
      (core.status = .stalled → e.status = .stalled)) ∨
    ∃ reason, e.status = .active ∧ core.status = .stalled ∧ core.stallReason = some reason ∧
      core.digest = e.digest ∧
      core.memory = Entries.insert reason.patternId e.digest e.memory ∧
      core.evidence = e.evidence ++ (e.evidence? reason.patternId).toArray := by
  cases h with
  | refused => exact .inr (.inl ⟨rfl, rfl, rfl, id⟩)
  | reduced hactive happly =>
    exact .inl ⟨Kernel.digest_ne_of_reduced happly, rfl, rfl, hactive⟩
  | stuck hactive happly => exact .inr (.inr ⟨_, hactive, rfl, rfl, rfl, rfl, rfl⟩)
  | exceeded hactive happly => exact .inr (.inl ⟨rfl, rfl, rfl, id⟩)
  | spent hactive => exact .inr (.inl ⟨rfl, rfl, rfl, id⟩)
  | reported hactive => exact .inr (.inr ⟨_, hactive, rfl, rfl, rfl, rfl, rfl⟩)
  | kept hstalled => exact .inr (.inl ⟨rfl, rfl, rfl, by simp⟩)
  | fixed hstalled haccept hother => exact .inl ⟨hother, rfl, rfl, rfl⟩
  | closed hopen => exact .inr (.inl ⟨rfl, rfl, rfl, by simp⟩)

/-- An active execution has no reason for a stall, a stalled one has. -/
def ReasonFits (e : Execution) : Prop :=
  (e.status = .active → e.stallReason = none) ∧ (e.status = .stalled → e.stallReason.isSome)

theorem Change.reasonFits (h : e.Change news core) (hfits : e.ReasonFits) : core.ReasonFits := by
  obtain ⟨hnone, hsome⟩ := hfits
  cases h with
  | refused => exact ⟨hnone, hsome⟩
  | reduced hactive => exact ⟨hnone, hsome⟩
  | stuck => exact ⟨by simp [stalled], by simp [stalled]⟩
  | exceeded => exact ⟨hnone, hsome⟩
  | spent => exact ⟨hnone, hsome⟩
  | reported => exact ⟨by simp [stalled], by simp [stalled]⟩
  | kept => exact ⟨fun _ => rfl, by simp⟩
  | fixed => exact ⟨fun _ => rfl, by simp⟩
  | closed => exact ⟨by simp, by simp⟩

/-! ## The memory holds what has stalled since -/

/-- What the memory of an execution holds, given those before it on its path. -/
structure Remembers (earlier : List Execution) (e : Execution) : Prop where
  digest_eq : e.digest = e.value.digest
  reasonFits : e.ReasonFits
  forall_memory : ∀ p ∈ e.memory, p.2 = e.digest
  isSome_iff : ∀ pattern,
    (Entries.get? e.memory pattern).isSome ↔ StalledSince (earlier ++ [e]) pattern

/-- The execution remembers a pattern exactly when it has stalled since the last change. -/
theorem Remembers.remembers_iff {earlier : List Execution} (h : Remembers earlier e)
    (pattern : String) : e.remembers pattern = true ↔ StalledSince (earlier ++ [e]) pattern := by
  rw [← h.isSome_iff]
  unfold remembers
  cases hget : Entries.get? e.memory pattern with
  | none => simp
  | some digest =>
    have hdigest : digest = e.digest := h.forall_memory _ (Entries.mem_of_get? hget)
    simp [hdigest]

theorem remembers_start {k : Kernel} {v : Value} (h : start k v = .ok e) : Remembers [] e := by
  have hnone : ∀ pattern, ¬StalledSince [e] pattern := by
    rintro pattern ⟨before, a, b, since, hsplit, -⟩
    have hlength := congrArg List.length hsplit
    simp only [List.length_append, List.length_cons, List.length_nil] at hlength
    omega
  obtain rfl := eq_of_start h
  exact ⟨rfl, ⟨fun _ => rfl, by simp⟩, by simp, fun pattern => by simpa using hnone pattern⟩

theorem Remembers.move {earlier : List Execution} (h : Remembers earlier e)
    (hchange : e.Change news core) : Remembers (earlier ++ [e]) (core.recordAll news) := by
  have hdigest := hchange.digest_eq h.digest_eq
  have hvalues : (core.recordAll news).value.digest = e.value.digest ↔ core.digest = e.digest := by
    rw [recordAll_value, hdigest, h.digest_eq]
  refine ⟨by simpa using hdigest, by simpa [ReasonFits] using hchange.reasonFits h.reasonFits, ?_,
    fun pattern => ?_⟩
  · rw [recordAll_memory, recordAll_digest]
    rcases hchange.memory_cases with
      ⟨-, hmemory, -⟩ | ⟨hsame, hmemory, -⟩ | ⟨reason, -, -, -, hsame, hmemory, -⟩
    · simp [hmemory]
    · rw [hmemory, hsame]
      exact h.forall_memory
    · rw [hmemory, hsame]
      intro p hp
      rcases Entries.mem_insert hp with rfl | hp
      · rfl
      · exact h.forall_memory p hp
  · rw [stalledSince_concat_iff, hvalues, ← h.isSome_iff, recordAll_memory]
    -- The memory changes as the moves that decide it do: cleared, kept, or one pattern added.
    rcases hchange.memory_cases with
      ⟨hother, hmemory, -, hactive⟩ | ⟨hsame, hmemory, -, hstatus⟩ |
        ⟨reason, hactive, hstalled, hreason, hsame, hmemory, -⟩
    · have hno : ¬Stalls e (core.recordAll news) pattern := fun hstalls => by
        simpa [hactive] using hstalls.status_after
      simp [hmemory, hother, hno]
    · have hno : ¬Stalls e (core.recordAll news) pattern := fun hstalls =>
        hstalls.status_before (hstatus (by simpa using hstalls.status_after))
      simp [hmemory, hsame, hno]
    · have hstalls : Stalls e (core.recordAll news) pattern ↔ reason.patternId = pattern := by
        constructor
        · intro hstalls
          simpa [hreason] using hstalls.pattern_eq
        · intro hpattern
          exact ⟨by simp [hactive], by simpa using hstalled, by simp [hreason, hpattern]⟩
      rw [hstalls, hmemory, hsame, Entries.get?_insert]
      by_cases hpattern : reason.patternId = pattern <;> simp [hpattern]

/-- Wherever moves lead from the start of an execution, it remembers what has stalled since. -/
theorem Reaches.remembers {first : Execution} {earlier : List Execution} {told : List Event}
    (h : Reaches first earlier told e) {k : Kernel} {v : Value}
    (hstart : Execution.start k v = .ok first) : Remembers earlier e := by
  induction h with
  | start => exact remembers_start hstart
  | move _ hchange ih => exact ih.move hchange

/-! ## Evidence -/

/-- A stall gives evidence, which carries its pattern and the digest in place, exactly when the
pattern has stalled before and no move since then has changed the digest of the value; no other move
gives any. In every execution that operations lead to, all digests in the memory are the one in
place, which is that of the value, and there is a reason for a stall while it is stalled and none
while it is active. -/
theorem evidence_iff_stalledSince {k : Kernel} {v : Value} {first : Execution}
    (hstart : start k v = .ok first) (operations : List Operation) :
    (∀ before a b after, first :: first.path operations = before ++ a :: b :: after →
      (∀ pattern, Stalls a b pattern →
        (b.evidence = a.evidence.push ⟨b.digest, pattern, "second_independent_stall"⟩ ↔
          StalledSince (before ++ [a]) pattern) ∧
        (b.evidence = a.evidence ↔ ¬StalledSince (before ++ [a]) pattern)) ∧
      ((∀ pattern, ¬Stalls a b pattern) → b.evidence = a.evidence)) ∧
    ∀ e ∈ first :: first.path operations,
      e.digest = e.value.digest ∧ (∀ p ∈ e.memory, p.2 = e.digest) ∧
        (e.status = .active → e.stallReason = none) ∧
        (e.status = .stalled → e.stallReason.isSome) := by
  constructor
  · intro before a b after hsplit
    obtain ⟨told, hreaches⟩ := reaches_of_path first operations hsplit
    have hremembers := hreaches.remembers hstart
    obtain ⟨news, core, hchange, rfl⟩ := first.move_of_path operations hsplit
    rw [recordAll_evidence, recordAll_digest]
    rcases hchange.memory_cases with
      ⟨-, -, hevidence, hactive⟩ | ⟨-, -, hevidence, hstatus⟩ |
        ⟨reason, hactive, hstalled, hreason, hsame, -, hevidence⟩
    · refine ⟨fun pattern hstalls => ?_, fun _ => hevidence⟩
      simpa [hactive] using hstalls.status_after
    · refine ⟨fun pattern hstalls => ?_, fun _ => hevidence⟩
      exact absurd (hstatus (by simpa using hstalls.status_after)) hstalls.status_before
    · constructor
      · intro pattern hstalls
        obtain rfl : reason.patternId = pattern := by simpa [hreason] using hstalls.pattern_eq
        rw [← hremembers.remembers_iff, hevidence, hsame, evidence?]
        cases a.remembers reason.patternId with
        | true => simp [Evidence.ofSecondStall]
        | false => simp
      · intro hno
        refine absurd ?_ (hno reason.patternId)
        exact ⟨by simp [hactive], by simpa using hstalled, by simp [hreason]⟩
  · intro e he
    obtain ⟨earlier, told, hreaches⟩ := reaches_of_mem_path first operations he
    obtain ⟨hdigest, hreason, hmemory, -⟩ := hreaches.remembers hstart
    exact ⟨hdigest, hmemory, hreason⟩

/-- The caller reports a pattern, puts the same value in place and reports the pattern again. -/
theorem evidence_iff_stalledSince_kept :
    ∃ first a b c, start ⟨⟨[]⟩, {}⟩ (.str "x") = .ok first ∧
      first :: first.path [.stall "p", .fix (.str "x"), .stall "p"] = [first, a] ++ [b, c] ∧
      Stalls b c "p" ∧ StalledSince [first, a, b] "p" ∧
      c.evidence = b.evidence.push ⟨c.digest, "p", "second_independent_stall"⟩ := by
  let first : Execution :=
    { kernel := ⟨⟨[]⟩, {}⟩, value := .str "x", digest := (Value.str "x").digest }
  let a := first.perform (.stall "p")
  let b := a.perform (.fix (.str "x"))
  let c := b.perform (.stall "p")
  have hstart : start ⟨⟨[]⟩, {}⟩ (.str "x") = .ok first := rfl
  have hpath : first :: first.path [.stall "p", .fix (.str "x"), .stall "p"] =
      [first, a] ++ [b, c] := rfl
  have hfirst : Stalls first a "p" := stalls_perform rfl "p"
  have hsecond : Stalls b c "p" := stalls_perform rfl "p"
  have hsame : b.value.digest = a.value.digest := by
    change (a.resume (.str "x")).value.digest = (Value.str "x").digest
    unfold resume
    simp only
    split
    · rw [record_eq]
      rfl
    · rfl
  have hsince : StalledSince [first, a, b] "p" :=
    ⟨[], first, a, [b], rfl, hfirst, by simpa using hsame⟩
  have hevidence := (evidence_iff_stalledSince hstart [.stall "p", .fix (.str "x"), .stall "p"]).1
    [first, a] b c [] hpath
  exact ⟨first, a, b, c, hstart, hpath, hsecond, hsince, (hevidence.1 "p" hsecond).1.2 hsince⟩

end TreeReduction.Execution
