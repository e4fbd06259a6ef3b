import TreeReduction.Proofs.Moves

set_option autoImplicit false

/-!
# Refused operations

An operation is refused where the execution stands, for the value that the caller meant to replace,
or for the value that would be put in place, and these are checked in this order
(`Execution.Refuses`). A refused operation has done nothing (`Execution.perform_of_refusal?`).

A run takes its steps by an operation that may be refused in turn (`Execution.advances`). Only the
first check of a run can refuse anything: a step leaves the execution active unless it ends the run.
-/

namespace TreeReduction

/-- Why an answer was refused, if it was. -/
def Refusal.of? {α : Type} : Except Refusal α → Option Refusal
  | .error r => some r
  | .ok _ => none

namespace Operation

/-- What a refusal calls an operation. -/
def word : Operation → String
  | .advance => "advance"
  | .run _ => "run"
  | .stall _ => "stall"
  | .fix _ => "fix"
  | .fixChecked .. => "fix"
  | .terminate => "terminate"

/-- Whether an operation is meant for executions that stand there. -/
def suits : Operation → Status → Bool
  | .fix _, status => status = .stalled
  | .fixChecked .., status => status = .stalled
  | .terminate, status => status ≠ .terminal
  | _, status => status = .active

/-- The digest that the value in place is expected to have. -/
def expected? : Operation → Option Digest
  | .fixChecked expected _ => some expected
  | _ => none

/-- The value that would be put in place. -/
def replacement? : Operation → Option Value
  | .fix replacement => some replacement
  | .fixChecked _ replacement => some replacement
  | _ => none

theorem suits_terminal (operation : Operation) : operation.suits .terminal = false := by
  cases operation <;> rfl

end Operation

namespace Execution

/-- Why an operation is refused, if it is. -/
def refusal? (e : Execution) : Operation → Option Refusal
  | .advance => Refusal.of? e.advance.1
  | .run maxSteps => Refusal.of? (e.run maxSteps).1
  | .stall pattern => Refusal.of? (e.stall pattern).1
  | .fix replacement => Refusal.of? (e.fix replacement).1
  | .fixChecked expected replacement => Refusal.of? (e.fixChecked expected replacement).1
  | .terminate => Refusal.of? e.terminate.1

/-- The checks of an operation. Each of them refuses only what those before it let through. -/
inductive Refuses (e : Execution) (operation : Operation) : Refusal → Prop where
  /-- the execution stands elsewhere -/
  | wrongStatus (hstatus : operation.suits e.status = false) :
      Refuses e operation (.wrongStatus operation.word e.status)
  /-- another value is in place than the caller expects -/
  | staleTarget (hstatus : operation.suits e.status = true) {expected : Digest}
      (hexpected : operation.expected? = some expected) (hother : expected ≠ e.digest) :
      Refuses e operation (.staleTarget expected e.digest)
  /-- the value to put in place is not let in -/
  | notAdmitted (hstatus : operation.suits e.status = true)
      (hexpected : ∀ expected, operation.expected? = some expected → expected = e.digest)
      {replacement : Value} (hreplacement : operation.replacement? = some replacement)
      {violation : Violation} (haccept : e.kernel.accept replacement = .error violation) :
      Refuses e operation (.notAdmitted violation)

/-- The loop of a run, which takes each step by the operation that may be refused. Were one refused,
the run would be refused with it, in the middle of what it did. -/
def advances : (budget : Nat) → Execution → Except Refusal Halt × Execution
  | 0, e => (.ok (.exhausted .steps), e.record (.exhausted e.steps .steps))
  | budget + 1, e =>
    match e.advance with
    | (.error r, e) => (.error r, e)
    | (.ok (.reduced _), e) => advances budget e
    | (.ok (.stalled reason _), e) => (.ok (.stalled reason), e)
    | (.ok (.exhausted resource _), e) => (.ok (.exhausted resource), e)

/-! ## Operations on the execution they are meant for -/

theorem require_of_ne {e : Execution} {status : Status} (h : e.status ≠ status)
    (operation : String) :
    e.require operation status = .error (.wrongStatus operation e.status) := by
  rw [require, if_neg h]

section Active

variable {e : Execution} (hactive : e.status = .active)

include hactive

theorem advance_of_active : e.advance = (.ok e.advanceActive.1, e.advanceActive.2) := by
  rw [advance, (e.require_eq_ok_iff _ _).2 hactive]

theorem run_of_active (maxSteps : Nat) :
    e.run maxSteps = (.ok (e.runActive maxSteps).1, (e.runActive maxSteps).2) := by
  rw [run, (e.require_eq_ok_iff _ _).2 hactive]

theorem stall_of_active (pattern : String) :
    e.stall pattern =
      (.ok (e.enterStall (.external pattern)).1, (e.enterStall (.external pattern)).2) := by
  rw [stall, (e.require_eq_ok_iff _ _).2 hactive]

/-- No step of a run is refused, since the run ends with the first one that is not a reduction. -/
theorem advances_of_active (budget : Nat) :
    e.advances budget = (.ok (e.runActive budget).1, (e.runActive budget).2) := by
  induction budget generalizing e with
  | zero => rfl
  | succ budget ih =>
    rw [advances, advance_of_active hactive, runActive]
    cases hadvance : e.advanceActive with
    | mk transition next =>
      cases transition with
      | reduced id => exact ih (status_of_reduced hactive hadvance)
      | stalled reason evidence => rfl
      | exhausted resource id => rfl

end Active

section Stalled

variable {e : Execution} (hstalled : e.status = .stalled)

include hstalled

theorem fix_of_accept {replacement : Value} (haccept : e.kernel.accept replacement = .ok ()) :
    e.fix replacement = (.ok (), e.resume replacement) := by
  rw [fix, (e.require_eq_ok_iff _ _).2 hstalled, haccept]

theorem fix_of_violation {replacement : Value} {violation : Violation}
    (haccept : e.kernel.accept replacement = .error violation) :
    e.fix replacement = (.error (.notAdmitted violation), e) := by
  rw [fix, (e.require_eq_ok_iff _ _).2 hstalled, haccept]

theorem fixChecked_of_stalled (expected : Digest) (replacement : Value) :
    e.fixChecked expected replacement =
      if expected = e.digest then e.fix replacement
      else (.error (.staleTarget expected e.digest), e) := by
  rw [fixChecked, (e.require_eq_ok_iff _ _).2 hstalled]

end Stalled

/-! ## What is refused -/

variable {e : Execution} {operation : Operation}

/-- An operation that the execution does not stand right for is refused and does nothing. -/
theorem refused_of_status (h : operation.suits e.status = false) :
    e.refusal? operation = some (.wrongStatus operation.word e.status) ∧
      e.perform operation = e := by
  cases operation with
  | advance =>
    have hne : e.status ≠ .active := by simpa [Operation.suits] using h
    rw [refusal?, perform, advance, require_of_ne hne]
    exact ⟨rfl, rfl⟩
  | run maxSteps =>
    have hne : e.status ≠ .active := by simpa [Operation.suits] using h
    rw [refusal?, perform, run, require_of_ne hne]
    exact ⟨rfl, rfl⟩
  | stall pattern =>
    have hne : e.status ≠ .active := by simpa [Operation.suits] using h
    rw [refusal?, perform, stall, require_of_ne hne]
    exact ⟨rfl, rfl⟩
  | fix replacement =>
    have hne : e.status ≠ .stalled := by simpa [Operation.suits] using h
    rw [refusal?, perform, fix, require_of_ne hne]
    exact ⟨rfl, rfl⟩
  | fixChecked expected replacement =>
    have hne : e.status ≠ .stalled := by simpa [Operation.suits] using h
    rw [refusal?, perform, fixChecked, require_of_ne hne]
    exact ⟨rfl, rfl⟩
  | terminate =>
    have hterminal : e.status = .terminal := by simpa [Operation.suits] using h
    rw [refusal?, perform, terminate, if_pos hterminal, hterminal]
    exact ⟨rfl, rfl⟩

/-- Operations with a value to put in place are meant for a stalled execution. -/
theorem stalled_of_suits (h : operation.suits e.status = true) {replacement : Value}
    (hreplacement : operation.replacement? = some replacement) : e.status = .stalled := by
  cases operation with
  | fix | fixChecked => simpa [Operation.suits] using h
  | _ => simp [Operation.replacement?] at hreplacement

/-- What a check refuses is refused, with nothing done. -/
theorem Refuses.refused {r : Refusal} (h : e.Refuses operation r) :
    e.refusal? operation = some r ∧ e.perform operation = e := by
  cases h with
  | wrongStatus hstatus => exact refused_of_status hstatus
  | @staleTarget hstatus expected hexpected hother =>
    cases operation with
    | fixChecked expected' replacement =>
      obtain rfl : expected' = expected := Option.some.inj hexpected
      have hstalled := stalled_of_suits hstatus rfl
      rw [refusal?, perform, fixChecked_of_stalled hstalled, if_neg hother]
      exact ⟨rfl, rfl⟩
    | _ => simp [Operation.expected?] at hexpected
  | @notAdmitted hstatus hexpected replacement hreplacement violation haccept =>
    have hstalled := stalled_of_suits hstatus hreplacement
    cases operation with
    | fix replacement' =>
      obtain rfl : replacement' = replacement := Option.some.inj hreplacement
      rw [refusal?, perform, fix_of_violation hstalled haccept]
      exact ⟨rfl, rfl⟩
    | fixChecked expected replacement' =>
      obtain rfl : replacement' = replacement := Option.some.inj hreplacement
      rw [refusal?, perform, fixChecked_of_stalled hstalled, if_pos (hexpected expected rfl),
        fix_of_violation hstalled haccept]
      exact ⟨rfl, rfl⟩
    | _ => simp [Operation.replacement?] at hreplacement

/-- What no check refuses is not refused. -/
theorem refusal?_eq_none (h : ∀ r, ¬e.Refuses operation r) : e.refusal? operation = none := by
  have hsuits : operation.suits e.status = true := by
    by_contra hstatus
    exact h _ (.wrongStatus (by simpa using hstatus))
  have haccept : ∀ replacement, operation.replacement? = some replacement →
      (∀ expected, operation.expected? = some expected → expected = e.digest) →
      e.kernel.accept replacement = .ok () := by
    intro replacement hreplacement hexpected
    cases haccept : e.kernel.accept replacement with
    | ok => rfl
    | error violation => exact absurd (.notAdmitted hsuits hexpected hreplacement haccept) (h _)
  cases operation with
  | advance =>
    have hactive : e.status = .active := by simpa [Operation.suits] using hsuits
    rw [refusal?, advance_of_active hactive]
    rfl
  | run maxSteps =>
    have hactive : e.status = .active := by simpa [Operation.suits] using hsuits
    rw [refusal?, run_of_active hactive]
    rfl
  | stall pattern =>
    have hactive : e.status = .active := by simpa [Operation.suits] using hsuits
    rw [refusal?, stall_of_active hactive]
    rfl
  | fix replacement =>
    have hstalled := stalled_of_suits hsuits rfl
    rw [refusal?, fix_of_accept hstalled (haccept replacement rfl (by simp [Operation.expected?]))]
    rfl
  | fixChecked expected replacement =>
    have hstalled := stalled_of_suits hsuits rfl
    have hexpected : expected = e.digest := by
      by_contra hother
      exact h _ (.staleTarget hsuits rfl hother)
    have hfix := fix_of_accept hstalled
      (haccept replacement rfl (by simp [Operation.expected?, hexpected]))
    rw [refusal?, fixChecked_of_stalled hstalled, if_pos hexpected, hfix]
    rfl
  | terminate =>
    have hopen : e.status ≠ .terminal := by simpa [Operation.suits] using hsuits
    rw [refusal?, terminate, if_neg hopen]
    rfl

theorem refusal?_eq_some_iff {r : Refusal} :
    e.refusal? operation = some r ↔ e.Refuses operation r := by
  refine ⟨fun h => ?_, fun h => h.refused.1⟩
  by_cases hrefuses : ∃ r', e.Refuses operation r'
  · obtain ⟨r', hr'⟩ := hrefuses
    obtain rfl : r' = r := Option.some.inj (hr'.refused.1.symm.trans h)
    exact hr'
  · rw [refusal?_eq_none (not_exists.1 hrefuses)] at h
    simp at h

theorem perform_of_refusal? {r : Refusal} (h : e.refusal? operation = some r) :
    e.perform operation = e :=
  (refusal?_eq_some_iff.1 h).refused.2

/-! ## Closed executions -/

/-- Nothing happens to an execution that is closed. -/
theorem performAll_of_terminal (hterminal : e.status = .terminal) (operations : List Operation) :
    e.performAll operations = e := by
  induction operations with
  | nil => rfl
  | cons operation rest ih =>
    have hstatus : operation.suits e.status = false := by
      rw [hterminal, operation.suits_terminal]
    rw [performAll, List.foldl_cons, (refused_of_status hstatus).2]
    exact ih

theorem status_terminate (e : Execution) : (e.perform .terminate).status = .terminal := by
  rw [perform, terminate]
  split
  · assumption
  · simp [record_eq]

/-- Operations are all or nothing. One is refused exactly for what its checks find, in their order,
and has then done nothing. Nor is a run refused after its first check, though each of its steps is
an operation that may be. Once an execution is closed, every operation is refused for that, and so
nothing happens to it any more. -/
theorem perform_atomic (e : Execution) :
    (∀ operation r, e.refusal? operation = some r ↔ e.Refuses operation r) ∧
    (∀ operation r, e.refusal? operation = some r → e.perform operation = e) ∧
    (e.status = .active → ∀ maxSteps, e.run maxSteps = e.advances maxSteps) ∧
    (e.perform .terminate).status = .terminal ∧
    (e.status = .terminal →
      (∀ operation, e.refusal? operation = some (.wrongStatus operation.word .terminal)) ∧
      ∀ operations, e.performAll operations = e) := by
  refine ⟨fun operation r => refusal?_eq_some_iff, fun operation r => perform_of_refusal?, ?_,
    e.status_terminate, ?_⟩
  · intro hactive maxSteps
    rw [run_of_active hactive, advances_of_active hactive]
  · intro hterminal
    refine ⟨fun operation => ?_, performAll_of_terminal hterminal⟩
    have hstatus : operation.suits e.status = false := by
      rw [hterminal, operation.suits_terminal]
    rw [(refused_of_status hstatus).1, hterminal]

/-- An execution that stalled at once. A value that is not let in is refused for being meant for
another value, where it is, and else for what it is; after the end nothing is let in. -/
theorem perform_atomic_stalled :
    let first : Execution :=
      { kernel := ⟨⟨[]⟩, {}⟩, value := .str "a", digest := (Value.str "a").digest }
    let e := first.performAll [.advance]
    let reserved : Value := .map [("_mode", .null)]
    let other : Operation := .fixChecked (Value.str "b").digest reserved
    let same : Operation := .fixChecked (Value.str "a").digest reserved
    start ⟨⟨[]⟩, {}⟩ (.str "a") = .ok first ∧
      e.refusal? other = some (.staleTarget (Value.str "b").digest e.digest) ∧
      e.refusal? same = some (.notAdmitted (.reservedKey "_mode")) ∧
      e.performAll [other, same] = e ∧
      (e.perform .terminate).performAll [.fix (.str "b"), .run 5] = e.perform .terminate := by
  intro first e reserved other same
  have hstalled : e.status = .stalled := rfl
  obtain ⟨hrefused, hatomic, -, hclosed, -⟩ := perform_atomic e
  have hother : e.refusal? other = some (.staleTarget (Value.str "b").digest e.digest) := by
    have hdigest : (Value.str "b").digest ≠ e.digest := by decide +kernel
    exact (hrefused _ _).2 (.staleTarget (by rw [hstalled]; rfl) rfl hdigest)
  have hsame : e.refusal? same = some (.notAdmitted (.reservedKey "_mode")) := by
    have hexpected : ∀ expected, same.expected? = some expected → expected = e.digest :=
      fun expected h => (Option.some.inj h).symm
    exact (hrefused _ _).2 (.notAdmitted (by rw [hstalled]; rfl) hexpected rfl rfl)
  refine ⟨rfl, hother, hsame, ?_, ?_⟩
  · rw [performAll, List.foldl_cons, hatomic _ _ hother, List.foldl_cons, hatomic _ _ hsame]
    rfl
  · obtain ⟨-, -, -, -, hterminal⟩ := perform_atomic (e.perform .terminate)
    exact (hterminal hclosed).2 _

end Execution

end TreeReduction
