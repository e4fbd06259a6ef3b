import TreeReduction.Kernel.Run
import TreeReduction.Proofs.Closure

set_option autoImplicit false

/-!
# What an admitted value can become

Wherever steps, runs and executions lead from an admitted value, the value in place keeps the bounds
of the kernel and has no reserved key (`Kernel.contained_of_accept`). A result is measured and never
searched for keys, so this rests on what a match can bind and a body can add: bound values are parts
of the value, however it is spelled, and filling in a body makes no key that the body does not have.

`Kernel.commits` lists the values that a run puts in place, which the run itself only tells by their
digests. For it and for executions one lemma each takes a property from one step to all of them
(`Kernel.forall_mem_commits`, `Execution.Reaches.value_induct`).
-/

namespace TreeReduction

namespace Value

/-- A value keeps the bounds and none of its maps has a reserved key, whatever its scalars are. -/
structure Contained (limits : Limits) (v : Value) : Prop where
  depth_le : v.depth ≤ limits.maxDepth
  width_le : v.width ≤ limits.maxWidth
  unreserved : v.Unreserved

theorem Admissible.contained {limits : Limits} {v : Value} (h : v.Admissible limits) :
    v.Contained limits :=
  ⟨h.depth_le, h.width_le, h.unreserved⟩

end Value

/-- Whether an event tells of a step that changed the digest. -/
def TraceEvent.isRewrite (e : TraceEvent) : Bool :=
  e.before ≠ e.after

namespace Kernel

variable {k : Kernel}

/-! ## Steps -/

/-- The value after a step that rewrote is contained, even where it could not be admitted. -/
theorem contained_of_reduced {setLimits : Limits} {projections : List Projection}
    (hcatalog : Catalog.ofList setLimits projections = .ok k.catalog) {v next : Value}
    {before after : Digest} {id : String} (hv : v.Contained k.limits)
    (h : k.apply v before = .reduced id next after) : next.Contained k.limits := by
  obtain ⟨hdepth, hwidth⟩ :=
    (Value.overrun?_eq_none_iff next k.limits).1 (overrun?_of_reduced h)
  exact ⟨hdepth, hwidth, unreserved_of_reduced hcatalog hv.unreserved h⟩

/-- The value after a single step is the rewritten one or the one before. -/
theorem step_of_accept {v : Value} (hv : k.accept v = .ok ()) :
    ∃ next, k.step v = .ok next ∧
      (next = v ∨ ∃ id after, k.apply v v.digest = .reduced id next after) := by
  rw [step, outcome_of_accept hv]
  cases happly : k.apply v v.digest with
  | reduced id next after => exact ⟨next, rfl, .inr ⟨id, after, rfl⟩⟩
  | stalled reason => exact ⟨v, rfl, .inl rfl⟩
  | exhausted resource id => exact ⟨v, rfl, .inl rfl⟩

/-! ## Runs -/

/-- The values that a run of up to `budget` steps puts in place, in order. -/
def commits (k : Kernel) : (budget : Nat) → Value → Digest → List Value
  | 0, _, _ => []
  | budget + 1, v, before =>
    match k.apply v before with
    | .reduced _ next after => next :: commits k budget next after
    | _ => []

theorem run_of_accept {v : Value} (hv : k.accept v = .ok ()) (maxSteps : Nat) :
    k.run v maxSteps = .ok (k.runFrom (min maxSteps maxRunSteps) 0 v v.digest) := by
  rw [run, hv]

/-- What every rewriting step keeps holds of all values that a run puts in place. -/
theorem forall_mem_commits {I : Value → Prop}
    (hstep : ∀ v before id next after, I v → k.apply v before = .reduced id next after → I next)
    (budget : Nat) {v : Value} (before : Digest) (hv : I v) :
    ∀ w ∈ k.commits budget v before, I w := by
  induction budget generalizing v before with
  | zero => simp [commits]
  | succ budget ih =>
    unfold commits
    cases happly : k.apply v before with
    | reduced id next after =>
      have hnext := hstep v before id next after hv happly
      exact List.forall_mem_cons.2 ⟨hnext, ih after hnext⟩
    | stalled reason => simp
    | exhausted resource id => simp

/-- A run answers the last value that it put in place. -/
theorem getLast?_commits (budget index : Nat) (v : Value) (before : Digest) :
    (v :: k.commits budget v before).getLast? = some (k.runFrom budget index v before).value := by
  induction budget generalizing index v before with
  | zero => rfl
  | succ budget ih =>
    unfold commits runFrom
    cases k.apply v before with
    | reduced id next after => rw [List.getLast?_cons_cons, ih (index + 1)]
    | stalled reason => rfl
    | exhausted resource id => rfl

/-- A run tells of the values that it put in place by their digests. -/
theorem map_digest_commits (budget index : Nat) (v : Value) (before : Digest) :
    (k.commits budget v before).map Value.digest =
      ((k.runFrom budget index v before).trace.filter TraceEvent.isRewrite).map (·.after) := by
  induction budget generalizing index v before with
  | zero => rfl
  | succ budget ih =>
    unfold commits runFrom
    cases happly : k.apply v before with
    | reduced id next after =>
      have hother : before ≠ after := (digest_ne_of_reduced happly).symm
      simp [TraceEvent.isRewrite, hother, digest_of_reduced happly, ih (index + 1)]
    | stalled reason => simp [TraceEvent.isRewrite]
    | exhausted resource id => simp [TraceEvent.isRewrite]

end Kernel

namespace Execution

/-! ## Executions -/

/-- A move leaves the value, or rewrites it by a step, or puts an admitted one in its place. -/
theorem Change.value_cases {e core : Execution} {news : List Event} (h : e.Change news core) :
    core.value = e.value ∨
    (∃ id, e.advance = (.ok (.reduced id), core.recordAll news) ∧
      e.kernel.apply e.value e.digest = .reduced id core.value core.digest) ∨
    e.kernel.accept core.value = .ok () := by
  cases h with
  | reduced hactive happly =>
    refine .inr (.inl ⟨_, ?_, happly⟩)
    rw [advance, (e.require_eq_ok_iff _ _).2 hactive, advanceActive_of_reduced happly]
  | fixed hstalled haccept => exact .inr (.inr haccept)
  | _ => exact .inl rfl

/-- What is admitted has and every rewriting step keeps holds of the value of every execution that
moves lead to. -/
theorem Reaches.value_induct {I : Value → Prop} {first e : Execution} {earlier : List Execution}
    {told : List Event} (h : Reaches first earlier told e) (hfirst : I first.value)
    (haccept : ∀ v, first.kernel.accept v = .ok () → I v)
    (hstep : ∀ v before id next after, I v → first.kernel.apply v before = .reduced id next after →
      I next) : I e.value := by
  induction h with
  | start => exact hfirst
  | move hreaches hchange ih =>
    rw [recordAll_value]
    have hkernel := hreaches.kernel_eq
    rcases hchange.value_cases with hsame | ⟨id, -, happly⟩ | hadmitted
    · exact hsame ▸ ih
    · exact hstep _ _ _ _ _ ih (hkernel ▸ happly)
    · exact haccept _ (hkernel ▸ hadmitted)

theorem start_of_accept {k : Kernel} {v : Value} (hv : k.accept v = .ok ()) :
    start k v = .ok { kernel := k, value := v, digest := v.digest } := by
  rw [start, hv]

end Execution

namespace Kernel

/-! ## Containment -/

/-- Whatever a catalog was checked against, and whatever value was admitted: the values after a
step, those that a run puts in place and those of all executions that operations lead to keep the
bounds and have no reserved key, and an execution knows the digest of its value. -/
theorem contained_of_accept {k : Kernel} {setLimits : Limits} {projections : List Projection}
    (hcatalog : Catalog.ofList setLimits projections = .ok k.catalog) {v : Value}
    (hv : k.accept v = .ok ()) :
    (∃ next, k.step v = .ok next ∧ next.Contained k.limits) ∧
    (∀ maxSteps, ∃ r, k.run v maxSteps = .ok r ∧
      let values := k.commits (min maxSteps 50000) v v.digest
      (v :: values).getLast? = some r.value ∧
        values.map Value.digest = (r.trace.filter TraceEvent.isRewrite).map (·.after) ∧
        ∀ w ∈ v :: values, w.Contained k.limits) ∧
    ∃ first, Execution.start k v = .ok first ∧
      ∀ operations, ∀ e ∈ first :: first.path operations,
        e.value.Contained k.limits ∧ e.digest = e.value.digest := by
  have hadmitted : ∀ w, k.accept w = .ok () → w.Contained k.limits := fun w hw =>
    ((k.accept_eq_ok_iff w).1 hw).contained
  have hstep : ∀ w before id next after, w.Contained k.limits →
      k.apply w before = .reduced id next after → next.Contained k.limits :=
    fun _ _ _ _ _ => contained_of_reduced hcatalog
  refine ⟨?_, fun maxSteps => ?_, ?_⟩
  · obtain ⟨next, hnext, rfl | ⟨id, after, happly⟩⟩ := step_of_accept hv
    · exact ⟨next, hnext, hadmitted next hv⟩
    · exact ⟨next, hnext, hstep v _ id next after (hadmitted v hv) happly⟩
  · refine ⟨_, run_of_accept hv maxSteps, getLast?_commits _ 0 v v.digest,
      map_digest_commits _ 0 v v.digest, ?_⟩
    exact List.forall_mem_cons.2
      ⟨hadmitted v hv, forall_mem_commits hstep _ v.digest (hadmitted v hv)⟩
  · have hstart := Execution.start_of_accept hv
    refine ⟨_, hstart, fun operations e he => ?_⟩
    obtain ⟨earlier, told, hreaches⟩ := Execution.reaches_of_mem_path _ operations he
    exact ⟨hreaches.value_induct (hadmitted v hv) hadmitted hstep,
      (hreaches.remembers hstart).digest_eq⟩

/-- A catalog that takes a chain apart by its keys and puts the parts into a map of its own. -/
def unchain : Kernel :=
  ⟨⟨[⟨"unchain", .map [("head", .site "first"), ("tail", .site "rest")],
    .map [("first", .site "first"), ("rest", .list [.site "rest"])]⟩]⟩, { maxDepth := 4 }⟩

theorem contained_of_accept_chain :
    Catalog.ofList {} unchain.catalog.projections = .ok unchain.catalog ∧
      unchain.accept (Linked.ofItems [.int 1, .int 2]) = .ok () ∧
      (∃ next, unchain.step (Linked.ofItems [.int 1, .int 2]) = .ok next ∧
        next.Contained { maxDepth := 4 }) ∧
      ∃ first, Execution.start unchain (Linked.ofItems [.int 1, .int 2]) = .ok first ∧
        ∀ e ∈ first :: first.path [.run 3, .stall "p", .fix (.str "x"), .advance],
          e.value.Contained { maxDepth := 4 } ∧ e.digest = e.value.digest := by
  have hcatalog : Catalog.ofList {} unchain.catalog.projections = .ok unchain.catalog := rfl
  have hv : unchain.accept (Linked.ofItems [.int 1, .int 2]) = .ok () := rfl
  obtain ⟨hstep, -, first, hstart, hpath⟩ := contained_of_accept hcatalog hv
  exact ⟨hcatalog, hv, hstep, first, hstart, hpath _⟩

end Kernel

end TreeReduction
