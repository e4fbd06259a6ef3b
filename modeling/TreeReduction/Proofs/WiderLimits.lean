import TreeReduction.Kernel.Run
import TreeReduction.Proofs.Containment
import TreeReduction.Proofs.DepthGuard

set_option autoImplicit false

/-!
# Runs within wider limits

Limits stop a run and never change it: within wider ones it is the same run, or goes on where the
narrower ones ended it (`Kernel.run_of_within`).

The limits come into a step at two places. A result is measured, which ends the run that has it. A
match is held to the depth, and a match that failed for that would let a later projection fire; but
a value that keeps the narrower bound cannot make it fail, whatever the pattern
(`Matching.extend_eq_collect`), and all values of a run do.
-/

namespace TreeReduction

/-- Limits that let in everything that narrower ones do. -/
structure Limits.Within (limits wider : Limits) : Prop where
  depth_le : limits.maxDepth ≤ wider.maxDepth
  width_le : limits.maxWidth ≤ wider.maxWidth
  floats : limits.allowFloats = true → wider.allowFloats = true

/-- A run that is the same as another one, or that its limits ended. All events but the last are
then those that the other one begins with. -/
structure Run.ContinuedBy (r longer : Run) : Prop where
  same : r.halt ≠ .exhausted .depth → r.halt ≠ .exhausted .width → longer = r
  cutShort : r.halt = .exhausted .depth ∨ r.halt = .exhausted .width →
    ∃ kept last rest, r.trace = kept ++ [last] ∧ longer.trace = kept ++ rest

namespace Run.ContinuedBy

/-- A run that no limit ended continues as itself. -/
theorem refl {r : Run} (h : ∀ resource, resource ≠ .steps → r.halt ≠ .exhausted resource) :
    r.ContinuedBy r := by
  refine ⟨fun _ _ => rfl, fun hended => ?_⟩
  rcases hended with hdepth | hwidth
  · exact absurd hdepth (h .depth (by simp))
  · exact absurd hwidth (h .width (by simp))

/-- A run that its limits ended in the first step. -/
theorem of_single {v : Value} {e : TraceEvent} {resource : Resource} (hresource : resource ≠ .steps)
    (longer : Run) : (Run.mk v [e] (.exhausted resource)).ContinuedBy longer := by
  refine ⟨fun hdepth hwidth => ?_, fun _ => ⟨[], e, longer.trace, rfl, rfl⟩⟩
  cases resource with
  | steps => exact absurd rfl hresource
  | depth => exact absurd rfl hdepth
  | width => exact absurd rfl hwidth

/-- An event before both runs. -/
theorem cons {r longer : Run} (h : r.ContinuedBy longer) (e : TraceEvent) :
    (Run.mk r.value (e :: r.trace) r.halt).ContinuedBy
      ⟨longer.value, e :: longer.trace, longer.halt⟩ := by
  refine ⟨fun hdepth hwidth => ?_, fun hended => ?_⟩
  · rw [h.same hdepth hwidth]
  · obtain ⟨kept, last, rest, htrace, hlonger⟩ := h.cutShort hended
    exact ⟨e :: kept, last, rest, congrArg (e :: ·) htrace, congrArg (e :: ·) hlonger⟩

end Run.ContinuedBy

section Within

variable {limits wider : Limits} (hwithin : limits.Within wider)

include hwithin

/-! ## Values -/

theorem Value.overrun?_of_within {v : Value} (h : v.overrun? limits = none) :
    v.overrun? wider = none := by
  obtain ⟨hdepth, hwidth⟩ := (v.overrun?_eq_none_iff limits).1 h
  exact (v.overrun?_eq_none_iff wider).2
    ⟨Nat.le_trans hdepth hwithin.depth_le, Nat.le_trans hwidth hwithin.width_le⟩

theorem Value.Admissible.of_within {v : Value} (h : v.Admissible limits) : v.Admissible wider :=
  ⟨Nat.le_trans h.depth_le hwithin.depth_le, Nat.le_trans h.width_le hwithin.width_le,
    ⟨h.floats.1, h.floats.2.imp_left hwithin.floats⟩, h.unreserved⟩

namespace Kernel

variable (catalog : Catalog)

/-! ## Steps -/

/-- A projection matches a value that keeps the narrower bound in the same way. -/
theorem match?_of_within (p : Projection) {v : Value} (hv : v.depth ≤ limits.maxDepth) :
    (Kernel.mk catalog wider).match? p v = (Kernel.mk catalog limits).match? p v := by
  have hwider := Nat.le_trans hv hwithin.depth_le
  calc (Kernel.mk catalog wider).match? p v
    _ = Matching.collect p.pattern v [] := Matching.extend_eq_collect _ p.pattern hwider []
    _ = (Kernel.mk catalog limits).match? p v :=
      (Matching.extend_eq_collect _ p.pattern hv []).symm

/-- The same comes of a match, unless the result breaks the narrower limits. -/
theorem commit_of_within (p : Projection) (bindings : Bindings) (before : Digest) :
    (Kernel.mk catalog wider).commit p bindings before =
      (Kernel.mk catalog limits).commit p bindings before ∨
    ∃ resource, (Kernel.mk catalog limits).commit p bindings before = .exhausted resource p.id := by
  unfold commit
  cases p.body.instantiate bindings with
  | error unbound => exact .inl rfl
  | ok next =>
    simp only
    cases hover : next.overrun? limits with
    | some resource => exact .inr ⟨resource, rfl⟩
    | none =>
      rw [Value.overrun?_of_within hwithin hover]
      exact .inl rfl

/-- A step does the same, unless its result breaks the narrower limits. -/
theorem apply_of_within {v : Value} (hv : v.depth ≤ limits.maxDepth) (before : Digest) :
    (Kernel.mk catalog wider).apply v before = (Kernel.mk catalog limits).apply v before ∨
    ∃ resource id, (Kernel.mk catalog limits).apply v before = .exhausted resource id := by
  unfold apply
  induction catalog.projections with
  | nil => exact .inl rfl
  | cons p rest ih =>
    rw [tryEach, tryEach, match?_of_within hwithin catalog p hv]
    cases (Kernel.mk catalog limits).match? p v with
    | none => exact ih
    | some bindings =>
      refine (commit_of_within hwithin catalog p bindings before).imp_right fun hended => ?_
      obtain ⟨resource, hexhausted⟩ := hended
      exact ⟨resource, p.id, hexhausted⟩

/-! ## Runs -/

/-- A run from a value that keeps the narrower bound is continued within the wider limits. -/
theorem runFrom_of_within (budget index : Nat) {v : Value} (hv : v.depth ≤ limits.maxDepth)
    (before : Digest) :
    ((Kernel.mk catalog limits).runFrom budget index v before).ContinuedBy
      ((Kernel.mk catalog wider).runFrom budget index v before) := by
  induction budget generalizing index v before with
  | zero => exact .refl fun resource hresource => by simpa [runFrom] using hresource.symm
  | succ budget ih =>
    have hstep := apply_of_within hwithin catalog hv before
    unfold runFrom
    cases happly : (Kernel.mk catalog limits).apply v before with
    | reduced id next after =>
      have hnext := ((next.overrun?_eq_none_iff limits).1 (overrun?_of_reduced happly)).1
      rw [hstep.resolve_right (by simp [happly]), happly]
      exact (ih (index + 1) hnext after).cons _
    | stalled reason =>
      rw [hstep.resolve_right (by simp [happly]), happly]
      exact .refl fun resource _ => by simp
    | exhausted resource id =>
      refine .of_single ?_ _
      rintro rfl
      exact apply_ne_exhausted_steps _ v before id happly

end Kernel

end Within

namespace Kernel

/-- A value that is admitted under limits is admitted under wider ones, and the run from it within
the wider ones is the same, or goes on where the narrower ones ended it for depth or width. -/
theorem run_of_within {limits wider : Limits} (hwithin : limits.Within wider) (catalog : Catalog)
    {v : Value} (hv : (Kernel.mk catalog limits).accept v = .ok ()) (maxSteps : Nat) :
    ∃ r longer, (Kernel.mk catalog limits).run v maxSteps = .ok r ∧
      (Kernel.mk catalog wider).run v maxSteps = .ok longer ∧ r.ContinuedBy longer := by
  have hadmissible := ((Kernel.mk catalog limits).accept_eq_ok_iff v).1 hv
  have hwider := ((Kernel.mk catalog wider).accept_eq_ok_iff v).2 (hadmissible.of_within hwithin)
  exact ⟨_, _, run_of_accept hv maxSteps, run_of_accept hwider maxSteps,
    runFrom_of_within hwithin catalog _ 0 hadmissible.depth_le v.digest⟩

/-- A catalog that puts layers around a value and takes four of them off at once. -/
def relayer : Catalog :=
  ⟨[⟨"unwrap", .list [.list [.list [.list [.site "x"]]]], .site "x"⟩,
    ⟨"wrap", .site "x", .list [.site "x"]⟩]⟩

/-- The first pattern is deeper than the narrower limits. They end the run that it would fire in
next. -/
theorem run_of_within_relayer :
    let limits : Limits := { maxDepth := 3, maxWidth := 8 }
    let wider : Limits := { maxDepth := 9, maxWidth := 8, allowFloats := true }
    limits.Within wider ∧ (Kernel.mk relayer limits).accept (.list [.str "a"]) = .ok () ∧
      ∃ r longer, (Kernel.mk relayer limits).run (.list [.str "a"]) 7 = .ok r ∧
        (Kernel.mk relayer wider).run (.list [.str "a"]) 7 = .ok longer ∧
        r.halt = .exhausted .depth ∧
        ∃ kept last rest, r.trace = kept ++ [last] ∧ longer.trace = kept ++ rest := by
  intro limits wider
  have hwithin : limits.Within wider := ⟨by decide, by decide, fun _ => rfl⟩
  have hv : (Kernel.mk relayer limits).accept (.list [.str "a"]) = .ok () := rfl
  have hended : ((Kernel.mk relayer limits).run (.list [.str "a"]) 7).map (·.halt) =
      .ok (.exhausted .depth) := by
    decide +kernel
  obtain ⟨r, longer, hr, hlonger, hcontinued⟩ := run_of_within hwithin relayer hv 7
  have hhalt : r.halt = .exhausted .depth := by
    rw [hr] at hended
    exact Except.ok.inj hended
  exact ⟨hwithin, hv, r, longer, hr, hlonger, hhalt, hcontinued.cutShort (.inl hhalt)⟩

end Kernel

end TreeReduction
