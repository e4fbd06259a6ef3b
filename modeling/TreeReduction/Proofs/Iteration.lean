import TreeReduction.Kernel.Run
import TreeReduction.Proofs.Steps

set_option autoImplicit false

/-!
# Runs are iterated steps

A run admits its value once and carries the digest along. A single step admits the value it is given
and computes its digest. `Kernel.Iterates` says what a run is in terms of single steps, and
`Kernel.run_iterates_outcome` that every run is that, and that a run which spent its budget can be
continued as if it had not stopped.

The invariant of the loop is that the value is still admissible and that the digest is its own. It
needs bodies that hold no forbidden floating-point numbers: a result is not searched for these,
while the next single step would refuse them.
-/

namespace TreeReduction

/-! ## Outcomes -/

namespace Outcome

/-- The value after an outcome of a step from `v`. -/
def valueFrom (v : Value) : Outcome → Value
  | .reduced _ next _ => next
  | _ => v

/-- How an outcome ends a run, if it does. -/
def halt? : Outcome → Option Halt
  | .reduced .. => none
  | .stalled reason => some (.stalled reason)
  | .exhausted resource _ => some (.exhausted resource)

end Outcome

/-- A trace whose first event is moved to the place `offset`, and all others along. -/
def Trace.shift (offset : Nat) (t : Trace) : Trace :=
  t.map fun e => { e with index := e.index + offset }

namespace Trace

@[simp]
theorem shift_nil (offset : Nat) : shift offset [] = [] := rfl

@[simp]
theorem shift_cons (offset : Nat) (e : TraceEvent) (t : Trace) :
    shift offset (e :: t) = { e with index := e.index + offset } :: shift offset t := rfl

@[simp]
theorem length_shift (offset : Nat) (t : Trace) : (shift offset t).length = t.length := by
  simp [shift]

theorem getElem?_shift (offset : Nat) (t : Trace) (i : Nat) :
    (shift offset t)[i]? = t[i]?.map fun e => { e with index := e.index + offset } := by
  simp [shift]

end Trace

namespace Kernel

/-! ## Iterated steps -/

/-- The value after a number of single steps, each of which has to rewrite. -/
def after? (k : Kernel) (v : Value) : Nat → Option Value
  | 0 => some v
  | n + 1 =>
    (k.after? v n).bind fun w =>
      match k.outcome w with
      | .ok (.reduced _ next _) => some next
      | _ => none

/-- A run that consists of single steps from a value, at most `budget` of them. It ends with the
first step that does not rewrite, if that is among them, and otherwise with the budget; the halt
tells the two apart. The event of each step tells the digests of the values before and after it and
the projection that fired. -/
structure Iterates (k : Kernel) (v : Value) (budget : Nat) (r : Run) : Prop where
  ending :
    (∃ n o, n < budget ∧ k.after? v n = some r.value ∧ k.outcome r.value = .ok o ∧
      o.halt? = some r.halt ∧ r.halt ≠ .exhausted .steps ∧ r.trace.length = n + 1) ∨
    (k.after? v budget = some r.value ∧ r.halt = .exhausted .steps ∧ r.trace.length = budget)
  event : ∀ i e, r.trace[i]? = some e → ∃ u o, k.after? v i = some u ∧ k.outcome u = .ok o ∧
    e = ⟨i, u.digest, (o.valueFrom u).digest, o.fired?⟩

/-- Steps counted from the value after the first one. -/
theorem after?_succ {k : Kernel} {v next : Value} {id : String} {after : Digest}
    (h : k.outcome v = .ok (.reduced id next after)) (n : Nat) :
    k.after? v (n + 1) = k.after? next n := by
  induction n with
  | zero => simp [after?, h]
  | succ n ih => rw [after?, ih, after?]

/-- A run that starts with a rewriting step. -/
theorem Iterates.cons {k : Kernel} {v next : Value} {id : String} {after : Digest} {budget : Nat}
    {r : Run} (hstep : k.outcome v = .ok (.reduced id next after)) (hafter : next.digest = after)
    (hr : k.Iterates next budget r) :
    k.Iterates v (budget + 1)
      ⟨r.value, ⟨0, v.digest, after, some id⟩ :: r.trace.shift 1, r.halt⟩ := by
  constructor
  · rcases hr.ending with
      ⟨n, o, hn, hreach, hout, hhalt, hsteps, hlength⟩ | ⟨hreach, hhalt, hlength⟩
    · refine .inl ⟨n + 1, o, by omega, ?_, hout, hhalt, hsteps, by simp [hlength]⟩
      rw [after?_succ hstep, hreach]
    · refine .inr ⟨?_, hhalt, by simp [hlength]⟩
      rw [after?_succ hstep, hreach]
  · intro i e he
    cases i with
    | zero =>
      simp only [List.getElem?_cons_zero, Option.some.injEq] at he
      refine ⟨v, _, rfl, hstep, ?_⟩
      rw [← he, ← hafter]
      rfl
    | succ i =>
      rw [List.getElem?_cons_succ, Trace.getElem?_shift] at he
      obtain ⟨e', he', rfl⟩ := Option.map_eq_some_iff.1 he
      obtain ⟨u, o, hreach, hout, rfl⟩ := hr.event i e' he'
      exact ⟨u, o, by rw [after?_succ hstep, hreach], hout, rfl⟩

/-- A run that consists of one step, which does not rewrite. -/
theorem Iterates.single {k : Kernel} {v : Value} {o : Outcome} {halt : Halt}
    (hstep : k.outcome v = .ok o) (hhalt : o.halt? = some halt) (hsteps : halt ≠ .exhausted .steps)
    (budget : Nat) :
    k.Iterates v (budget + 1) ⟨v, [⟨0, v.digest, v.digest, o.fired?⟩], halt⟩ := by
  have hvalue : o.valueFrom v = v := by
    cases o with
    | reduced => simp [Outcome.halt?] at hhalt
    | stalled | exhausted => rfl
  constructor
  · exact .inl ⟨0, o, by omega, rfl, hstep, hhalt, hsteps, rfl⟩
  · intro i e he
    cases i with
    | zero =>
      simp only [List.getElem?_cons_zero, Option.some.injEq] at he
      exact ⟨v, o, rfl, hstep, by rw [← he, hvalue]⟩
    | succ i => simp at he

/-! ## The loop -/

/-- The index of the first event moves all the others. -/
theorem runFrom_add_index (k : Kernel) (offset : Nat) :
    ∀ (budget index : Nat) (v : Value) (before : Digest),
      k.runFrom budget (index + offset) v before =
        let r := k.runFrom budget index v before
        ⟨r.value, r.trace.shift offset, r.halt⟩ := by
  intro budget
  induction budget with
  | zero => intro index v before; rfl
  | succ budget ih =>
    intro index v before
    simp only [runFrom]
    cases k.apply v before with
    | reduced id next after =>
      simp only
      rw [Nat.add_right_comm, ih (index + 1) next after]
      rfl
    | stalled reason => rfl
    | exhausted resource id => rfl

section Loop

variable {k : Kernel} {setLimits : Limits} {projections : List Projection}
  (hcatalog : Catalog.ofList setLimits projections = .ok k.catalog)
  (hfloats : k.limits.allowFloats = true ∨ ∀ p ∈ k.catalog.projections, p.body.FloatFree)

theorem outcome_of_admissible {v : Value} (hv : v.Admissible k.limits) :
    k.outcome v = .ok (k.apply v v.digest) :=
  outcome_of_accept ((k.accept_eq_ok_iff v).2 hv)

include hcatalog hfloats in
/-- The loop does nothing but single steps, while its value is admissible and its digest is that of
the value. -/
theorem runFrom_iterates :
    ∀ (budget : Nat) (v : Value), v.Admissible k.limits →
      k.Iterates v budget (k.runFrom budget 0 v v.digest) := by
  intro budget
  induction budget with
  | zero =>
    intro v hv
    exact ⟨.inr ⟨rfl, rfl, rfl⟩, by simp [runFrom]⟩
  | succ budget ih =>
    intro v hv
    have hstep := outcome_of_admissible hv
    unfold runFrom
    cases happly : k.apply v v.digest with
    | reduced id next after =>
      rw [happly] at hstep
      obtain rfl := digest_of_reduced happly
      have hnext := admissible_of_reduced hcatalog hfloats hv happly
      simp only
      rw [runFrom_add_index k 1 budget 0 next next.digest]
      exact .cons hstep rfl (ih next hnext)
    | stalled reason =>
      rw [happly] at hstep
      exact .single hstep rfl (by simp) budget
    | exhausted resource id =>
      rw [happly] at hstep
      refine .single hstep rfl ?_ budget
      simp only [ne_eq, Halt.exhausted.injEq]
      rintro rfl
      exact k.apply_ne_exhausted_steps v v.digest id happly

include hcatalog hfloats in
/-- A loop that spent its budget goes on from an admissible value, with the digest of that value. -/
theorem runFrom_add (n : Nat) :
    ∀ (m index : Nat) (v : Value), v.Admissible k.limits →
      (k.runFrom m index v v.digest).halt = .exhausted .steps →
      let r := k.runFrom m index v v.digest
      let r' := k.runFrom n (index + m) r.value r.value.digest
      r.value.Admissible k.limits ∧
        k.runFrom (m + n) index v v.digest = ⟨r'.value, r.trace ++ r'.trace, r'.halt⟩ := by
  intro m
  induction m with
  | zero =>
    intro index v hv _
    refine ⟨hv, ?_⟩
    rw [Nat.zero_add]
    rfl
  | succ m ih =>
    intro index v hv hhalt
    rw [Nat.add_right_comm]
    cases happly : k.apply v v.digest with
    | reduced id next after =>
      obtain rfl := digest_of_reduced happly
      have hnext := admissible_of_reduced hcatalog hfloats hv happly
      simp only [runFrom, happly] at hhalt ⊢
      obtain ⟨hvalue, hrest⟩ := ih (index + 1) next hnext hhalt
      refine ⟨hvalue, ?_⟩
      rw [hrest, Nat.add_assoc, Nat.add_comm 1 m]
      rfl
    | stalled reason => simp [runFrom, happly] at hhalt
    | exhausted resource id =>
      simp only [runFrom, happly, Halt.exhausted.injEq] at hhalt
      exact absurd (hhalt ▸ happly) (k.apply_ne_exhausted_steps v v.digest id)

/-- Every run is the iteration of single steps, at most 50000 of them, and running on from where the
budget ended is the same as having had the larger budget. -/
theorem run_iterates_outcome
    (hcatalog : Catalog.ofList setLimits projections = .ok k.catalog)
    (hfloats : k.limits.allowFloats = true ∨ ∀ p ∈ k.catalog.projections, p.body.FloatFree)
    {v : Value} (hv : k.accept v = .ok ()) :
    (∀ maxSteps, ∃ r, k.run v maxSteps = .ok r ∧ k.Iterates v (min maxSteps 50000) r) ∧
    ∀ m n r, m + n ≤ 50000 → k.run v m = .ok r → r.halt = .exhausted .steps →
      ∃ r', k.run r.value n = .ok r' ∧
        k.run v (m + n) = .ok ⟨r'.value, r.trace ++ r'.trace.shift m, r'.halt⟩ := by
  have hadmissible := (k.accept_eq_ok_iff v).1 hv
  have hrun : ∀ {w : Value}, w.Admissible k.limits → ∀ maxSteps,
      k.run w maxSteps = .ok (k.runFrom (min maxSteps 50000) 0 w w.digest) := by
    intro w hw maxSteps
    unfold run
    rw [(k.accept_eq_ok_iff w).2 hw]
    rfl
  constructor
  · intro maxSteps
    exact ⟨_, hrun hadmissible maxSteps, runFrom_iterates hcatalog hfloats _ v hadmissible⟩
  · intro m n r hmn hr hhalt
    rw [hrun hadmissible, Nat.min_eq_left (by omega), Except.ok.injEq] at hr
    subst hr
    obtain ⟨hvalue, hjoin⟩ := runFrom_add hcatalog hfloats n m 0 v hadmissible hhalt
    refine ⟨_, hrun hvalue n, ?_⟩
    rw [hrun hadmissible, Nat.min_eq_left hmn, Nat.min_eq_left (by omega), hjoin,
      runFrom_add_index k m n 0]

/-- A number as layers around a text. -/
def layers : Nat → Value
  | 0 => .str "zero"
  | n + 1 => .map [("succ", layers n)]

/-- A catalog with one projection, which takes off a layer. -/
def countdown : Kernel :=
  ⟨⟨[⟨"succ", .map [("succ", .site "n")], .site "n"⟩]⟩, {}⟩

theorem run_iterates_outcome_countdown :
    Catalog.ofList {} countdown.catalog.projections = .ok countdown.catalog ∧
      (∀ p ∈ countdown.catalog.projections, p.body.FloatFree) ∧
      countdown.accept (layers 3) = .ok () ∧
      (∃ r, countdown.run (layers 3) 10 = .ok r ∧ countdown.Iterates (layers 3) 10 r) ∧
      ∀ r, countdown.run (layers 3) 2 = .ok r → r.halt = .exhausted .steps →
        ∃ r', countdown.run r.value 5 = .ok r' ∧
          countdown.run (layers 3) 7 = .ok ⟨r'.value, r.trace ++ r'.trace.shift 2, r'.halt⟩ := by
  have hcatalog : Catalog.ofList {} countdown.catalog.projections = .ok countdown.catalog := rfl
  have hfloats : ∀ p ∈ countdown.catalog.projections, p.body.FloatFree := by
    have hname : (Value.str "n").FloatFree := (Value.floatFree_scalar_iff rfl).2 (by simp)
    simpa [countdown, Value.site] using hname
  have hv : countdown.accept (layers 3) = .ok () := rfl
  have hruns := run_iterates_outcome hcatalog (.inr hfloats) hv
  exact ⟨hcatalog, hfloats, hv, hruns.1 10, fun r => hruns.2 2 5 r (by omega)⟩

end Loop

end Kernel

end TreeReduction
