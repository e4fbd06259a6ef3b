import TreeReduction.Proofs.Containment

set_option autoImplicit false

/-!
# Where floating-point numbers are forbidden

A kernel that forbids floating-point numbers lets none in, but measures a result and does not search
it. The catalog has limits of its own, so a body may hold a number that the kernel forbids. That is
the only way for one to come up: a rewritten value is free of them exactly when the body that made
it is (`Kernel.floatFree_of_reduced_iff`). From one step this is taken to runs and to executions,
and `Kernel.floatFree_iff_bodies` puts the three together.

A value that is not free of them is refused by the kernel that made it
(`Kernel.stepsUnlessFloat_of_contained`).
-/

namespace TreeReduction

/-- An id names a projection whose body has no floating-point number. -/
def Catalog.FloatFreeBody (c : Catalog) (id : String) : Prop :=
  ∃ p, c.get? id = some p ∧ p.body.FloatFree

/-- A value can be stepped, unless it has a floating-point number, which is refused. -/
def Kernel.StepsUnlessFloat (k : Kernel) (v : Value) : Prop :=
  (v.FloatFree → ∃ next, k.step v = .ok next) ∧
    (¬v.FloatFree → k.step v = .error .floatNotPermitted)

namespace Kernel

variable {k : Kernel}

/-- Under limits that forbid floating-point numbers, what is admitted has none. -/
theorem floatFree_of_accept (hlimits : k.limits.allowFloats = false) {v : Value}
    (hv : k.accept v = .ok ()) : v.FloatFree := by
  have hfloats := ((k.accept_eq_ok_iff v).1 hv).floats.2
  simpa [hlimits] using hfloats

/-- What keeps the bounds and the reserved keys out can only be refused for a floating-point
number. -/
theorem stepsUnlessFloat_of_contained (hlimits : k.limits.allowFloats = false) {v : Value}
    (hv : v.Contained k.limits) (hfinite : v.FiniteFloats) : k.StepsUnlessFloat v := by
  have hallowed : v.check { k.limits with allowFloats := true } = .ok () :=
    (Value.check_eq_ok_iff _ v).2 ⟨hv.depth_le, hv.width_le, hfinite, .inl rfl⟩
  refine ⟨fun hfree => ?_, fun hfloat => ?_⟩
  · have haccept : k.accept v = .ok () := (k.accept_eq_ok_iff v).2
      ⟨hv.depth_le, hv.width_le, ⟨hfinite, .inr hfree⟩, hv.unreserved⟩
    obtain ⟨next, hnext, -⟩ := step_of_accept haccept
    exact ⟨next, hnext⟩
  · rcases Value.checkAt_of_allowed hallowed with hok | hrefused
    · have hfloats := ((Value.check_eq_ok_iff _ v).1 hok).2.2.2
      exact absurd (by simpa [hlimits] using hfloats) hfloat
    · have haccept : k.accept v = .error .floatNotPermitted := by
        rw [accept, Value.check, hrefused]
      rw [step, outcome, haccept]
      rfl

section Catalog

variable {setLimits : Limits} {projections : List Projection}
  (hcatalog : Catalog.ofList setLimits projections = .ok k.catalog)

include hcatalog

/-! ## Steps -/

/-- Where the catalog was held to the same rule, no body breaks it. -/
theorem floatFreeBody_of_mem_ids (hforbidden : setLimits.allowFloats = false) {id : String}
    (hid : id ∈ k.catalog.ids) : k.catalog.FloatFreeBody id := by
  obtain ⟨p, hp, rfl⟩ := List.mem_map.1 hid
  have hfloats := (Catalog.admissible_of_ofList hcatalog hp).2.floats.2
  exact ⟨p, Catalog.get?_of_mem hcatalog hp, by simpa [hforbidden] using hfloats⟩

/-- A value made from one without floating-point numbers has none exactly when the body has none:
what is bound is a part of the value, and filling in takes nothing else out of a body than its
sites. -/
theorem floatFree_of_reduced_iff {v : Value} (hv : v.FloatFree) {before after : Digest}
    {id : String} {next : Value} (h : k.apply v before = .reduced id next after) :
    next.FloatFree ↔ k.catalog.FloatFreeBody id := by
  obtain ⟨p, hp, bindings, hmatch, hcommit⟩ := apply_eq_reduced h
  obtain ⟨rfl, hbody, -⟩ := commit_eq_reduced_iff.1 hcommit
  have hget := Catalog.get?_of_mem hcatalog hp
  constructor
  · intro hnext
    have hsite : ∀ name, (Value.site name).FloatFree := fun name => by
      simp [Value.site, Value.floatFree_scalar_iff (v := .str name) rfl]
    exact ⟨p, hget, Value.everywhere_of_instantiate shallow_floatFree hsite hbody hnext⟩
  · rintro ⟨q, hq, hfree⟩
    obtain rfl : p = q := Option.some.inj (hget.symm.trans hq)
    exact Value.everywhere_instantiate shallow_floatFree
      (fun b hb => hv.part (Value.part_of_mem_match? hmatch hb)) hfree hbody

/-! ## Runs -/

/-- A run puts no floating-point number in place exactly when no body that rewrites in it has
one. -/
theorem forall_commits_floatFree_iff (budget index : Nat) {v : Value} (before : Digest)
    (hv : v.FloatFree) :
    (∀ w ∈ k.commits budget v before, w.FloatFree) ↔
      ∀ e ∈ (k.runFrom budget index v before).trace, e.isRewrite = true →
        ∀ id ∈ e.projection, k.catalog.FloatFreeBody id := by
  induction budget generalizing index v before with
  | zero => simp [commits, runFrom]
  | succ budget ih =>
    unfold commits runFrom
    cases happly : k.apply v before with
    | reduced id next after =>
      have hother : before ≠ after := (digest_ne_of_reduced happly).symm
      have hfirst := floatFree_of_reduced_iff hcatalog hv happly
      simp only [List.forall_mem_cons, TraceEvent.isRewrite, hother, ne_eq, not_false_eq_true,
        decide_true, true_implies, Option.mem_def, Option.some.injEq, forall_eq']
      rw [← hfirst]
      exact and_congr_right fun hnext => ih (index + 1) after hnext
    | stalled reason => simp [TraceEvent.isRewrite]
    | exhausted resource id => simp [TraceEvent.isRewrite]

end Catalog

end Kernel

/-! ## Executions -/

namespace Execution

/-- Where one execution becomes another one by a step that rewrites, the body has no floating-point
number. -/
def RewritesFloatFree (a b : Execution) : Prop :=
  ∀ id, a.advance = (.ok (.reduced id), b) → a.kernel.catalog.FloatFreeBody id

variable {setLimits : Limits} {projections : List Projection}

/-- A move from a value without floating-point numbers leads to another one exactly when it is no
step by a body that has one. -/
theorem Move.floatFree_iff {a b : Execution} (h : a.Move b)
    (hcatalog : Catalog.ofList setLimits projections = .ok a.kernel.catalog)
    (hlimits : a.kernel.limits.allowFloats = false) (ha : a.value.FloatFree) :
    b.value.FloatFree ↔ RewritesFloatFree a b := by
  have hrewrite : ∀ id, a.advance = (.ok (.reduced id), b) →
      (b.value.FloatFree ↔ a.kernel.catalog.FloatFreeBody id) := by
    intro id hadvance
    exact Kernel.floatFree_of_reduced_iff hcatalog ha (apply_of_advance_reduced hadvance)
  refine ⟨fun hb id hadvance => (hrewrite id hadvance).1 hb, fun hbodies => ?_⟩
  obtain ⟨news, core, hchange, rfl⟩ := h
  rcases hchange.value_cases with hsame | ⟨id, hadvance, -⟩ | haccept
  · rw [recordAll_value, hsame]
    exact ha
  · exact (hrewrite id hadvance).2 (hbodies id hadvance)
  · rw [recordAll_value]
    exact Kernel.floatFree_of_accept hlimits haccept

/-- No execution of a chain of moves has a floating-point number exactly when none of the bodies
that rewrite in it has one. -/
theorem forall_floatFree_iff_isChain {first : Execution} {rest : List Execution}
    (h : List.IsChain Move (first :: rest))
    (hcatalog : Catalog.ofList setLimits projections = .ok first.kernel.catalog)
    (hlimits : first.kernel.limits.allowFloats = false) (hfirst : first.value.FloatFree) :
    (∀ e ∈ first :: rest, e.value.FloatFree) ↔ List.IsChain RewritesFloatFree (first :: rest) := by
  induction rest generalizing first with
  | nil => simpa using hfirst
  | cons next rest ih =>
    rw [List.isChain_cons_cons] at h ⊢
    obtain ⟨hmove, hrest⟩ := h
    rw [List.forall_mem_cons, ← hmove.floatFree_iff hcatalog hlimits hfirst]
    have hkernel : next.kernel = first.kernel := hmove.kernel_eq
    constructor
    · rintro ⟨-, hall⟩
      have hnext : next.value.FloatFree := hall next (by simp)
      exact ⟨hnext, (ih hrest (hkernel ▸ hcatalog) (hkernel ▸ hlimits) hnext).1 hall⟩
    · rintro ⟨hnext, hchain⟩
      exact ⟨hfirst, (ih hrest (hkernel ▸ hcatalog) (hkernel ▸ hlimits) hnext).2 hchain⟩

end Execution

namespace Kernel

/-! ## Everything that a kernel makes -/

/-- Let a kernel forbid floating-point numbers, its catalog be checked against any limits, and a
value be admitted. What a step, a run and an execution put in place can be stepped again unless it
has a floating-point number. It has none exactly when no body that rewrote has one, and if the
limits of the catalog forbid them as well, no body has. -/
theorem floatFree_iff_bodies {k : Kernel} {setLimits : Limits} {projections : List Projection}
    (hcatalog : Catalog.ofList setLimits projections = .ok k.catalog)
    (hlimits : k.limits.allowFloats = false) {v : Value} (hv : k.accept v = .ok ()) :
    (∀ id next after, k.outcome v = .ok (.reduced id next after) →
      k.step v = .ok next ∧ k.StepsUnlessFloat next ∧
        (next.FloatFree ↔ k.catalog.FloatFreeBody id)) ∧
    (∀ maxSteps, ∃ r, k.run v maxSteps = .ok r ∧
      let values := k.commits (min maxSteps 50000) v v.digest
      (v :: values).getLast? = some r.value ∧
        (∀ w ∈ v :: values, k.StepsUnlessFloat w) ∧
          ((∀ w ∈ v :: values, w.FloatFree) ↔
            ∀ e ∈ r.trace, e.isRewrite = true → ∀ id ∈ e.projection, k.catalog.FloatFreeBody id)) ∧
    (∃ first, Execution.start k v = .ok first ∧ ∀ operations,
      (∀ e ∈ first :: first.path operations, k.StepsUnlessFloat e.value) ∧
        ((∀ e ∈ first :: first.path operations, e.value.FloatFree) ↔
          List.IsChain Execution.RewritesFloatFree (first :: first.path operations))) ∧
    (setLimits.allowFloats = false → ∀ id ∈ k.catalog.ids, k.catalog.FloatFreeBody id) := by
  have hfree : v.FloatFree := floatFree_of_accept hlimits hv
  -- what steps keep, floating-point numbers left aside
  let I : Value → Prop := fun w => w.Contained k.limits ∧ w.FiniteFloats
  have hsteps : ∀ w, I w → k.StepsUnlessFloat w := fun w hw =>
    stepsUnlessFloat_of_contained hlimits hw.1 hw.2
  have hadmitted : ∀ w, k.accept w = .ok () → I w := fun w hw =>
    have hadmissible := (k.accept_eq_ok_iff w).1 hw
    ⟨hadmissible.contained, hadmissible.floats.1⟩
  have hkept : ∀ w before id next after, I w → k.apply w before = .reduced id next after →
      I next := fun _ _ _ _ _ hw happly =>
    ⟨contained_of_reduced hcatalog hw.1 happly, finiteFloats_of_reduced hcatalog hw.2 happly⟩
  refine ⟨fun id next after houtcome => ?_, fun maxSteps => ?_, ?_, fun hforbidden id hid =>
    floatFreeBody_of_mem_ids hcatalog hforbidden hid⟩
  · have happly : k.apply v v.digest = .reduced id next after := by
      simpa [outcome_of_accept hv] using houtcome
    refine ⟨by rw [step, houtcome]; rfl, ?_, floatFree_of_reduced_iff hcatalog hfree happly⟩
    exact hsteps next (hkept v _ id next after (hadmitted v hv) happly)
  · refine ⟨_, run_of_accept hv maxSteps, getLast?_commits _ 0 v v.digest, ?_, ?_⟩
    · have hall := forall_mem_commits hkept (min maxSteps 50000) v.digest (hadmitted v hv)
      exact fun w hw => hsteps w (List.forall_mem_cons.2 ⟨hadmitted v hv, hall⟩ w hw)
    · rw [List.forall_mem_cons, and_iff_right hfree]
      exact forall_commits_floatFree_iff hcatalog _ 0 v.digest hfree
  · refine ⟨_, Execution.start_of_accept hv, fun operations => ⟨fun e he => ?_, ?_⟩⟩
    · obtain ⟨earlier, told, hreaches⟩ := Execution.reaches_of_mem_path _ operations he
      exact hsteps e.value (hreaches.value_induct (hadmitted v hv) hadmitted hkept)
    · exact Execution.forall_floatFree_iff_isChain (Execution.isChain_path _ operations) hcatalog
        hlimits hfree

/-- A catalog that was allowed floating-point numbers, in a kernel that forbids them. -/
def half : Kernel :=
  ⟨⟨[⟨"half", .str "a", .float ⟨0x3FF8000000000000⟩⟩, ⟨"next", .str "b", .str "a"⟩]⟩, {}⟩

theorem floatFree_iff_bodies_half :
    Catalog.ofList { allowFloats := true } half.catalog.projections = .ok half.catalog ∧
      half.limits.allowFloats = false ∧
      half.accept (.str "b") = .ok () ∧
      (∃ r, half.run (.str "b") 9 = .ok r ∧
        ((∀ w ∈ Value.str "b" :: half.commits 9 (.str "b") (Value.str "b").digest, w.FloatFree) ↔
          ∀ e ∈ r.trace, e.isRewrite = true → ∀ id ∈ e.projection,
            half.catalog.FloatFreeBody id)) ∧
      ∃ first, Execution.start half (.str "b") = .ok first ∧
        ∀ e ∈ first :: first.path [.run 9, .stall "p", .fix (.str "a"), .advance],
          half.StepsUnlessFloat e.value := by
  have hcatalog :
      Catalog.ofList { allowFloats := true } half.catalog.projections = .ok half.catalog := rfl
  have hv : half.accept (.str "b") = .ok () := rfl
  obtain ⟨-, hrun, ⟨first, hstart, hpath⟩, -⟩ := floatFree_iff_bodies hcatalog rfl hv
  obtain ⟨r, hr, -, -, hiff⟩ := hrun 9
  exact ⟨hcatalog, rfl, hv, ⟨r, hr, hiff⟩, first, hstart, (hpath _).1⟩

/-- The catalog passes where floating-point numbers are allowed; the kernel forbids them, makes one
out of a text that it admits, and refuses it in the next step. -/
theorem step_makes_float :
    Catalog.ofList { allowFloats := true } half.catalog.projections = .ok half.catalog ∧
      half.limits.allowFloats = false ∧
      half.accept (.str "a") = .ok () ∧
      half.step (.str "a") = .ok (.float ⟨0x3FF8000000000000⟩) ∧
      half.step (.float ⟨0x3FF8000000000000⟩) = .error .floatNotPermitted := by
  have hother : (Value.float ⟨0x3FF8000000000000⟩).digest ≠ (Value.str "a").digest := by
    decide +kernel
  have hfirst : half.FirstMatch (.str "a") ⟨"half", .str "a", .float ⟨0x3FF8000000000000⟩⟩ [] :=
    ⟨[], [⟨"next", .str "b", .str "a"⟩], rfl, by simp, rfl⟩
  have happly := (apply_of_firstMatch hfirst (Value.str "a").digest).trans
    (commit_eq_reduced_iff.2 ⟨rfl, rfl, rfl, rfl, hother⟩)
  refine ⟨rfl, rfl, rfl, ?_, rfl⟩
  rw [step, outcome_of_accept rfl, happly]
  rfl

end Kernel

end TreeReduction
