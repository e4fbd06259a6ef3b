import Mathlib.Logic.Function.Iterate
import Mathlib.Logic.Relation
import TreeReduction.Kernel.Phase
import TreeReduction.Proofs.Steps

set_option autoImplicit false

/-!
# The first match decides

A step is a machine that goes from phase to phase. No transition changes what the machine is going
to come to, and each brings it closer, so it ends with what trying one projection after the other
comes to (`Phase.iterate_next`).

What comes of a match (`Kernel.ComesTo`) is never that the next projection is tried. So the
projections behind a match do not count, and neither does one that does not match
(`Kernel.outcome_of_edits`).
-/

namespace TreeReduction

namespace Phase

variable {k : Kernel} {v : Value} {before : Digest}

/-- What a step comes to from a phase on. -/
def verdict (k : Kernel) (v : Value) (before : Digest) : Phase → Outcome
  | .select remaining => k.tryEach v before remaining
  | .apply p bindings => k.commit p bindings before
  | .done outcome => outcome

/-- The most transitions that are left until a step is decided. -/
def left : Phase → Nat
  | .select remaining => remaining.length + 1
  | .apply .. => 1
  | .done _ => 0

theorem verdict_next (phase : Phase) :
    (phase.next k v before).verdict k v before = phase.verdict k v before := by
  cases phase with
  | select remaining =>
    cases remaining with
    | nil => rfl
    | cons p rest =>
      simp only [next, verdict, Kernel.tryEach]
      cases k.match? p v <;> rfl
  | apply p bindings => rfl
  | done outcome => rfl

theorem left_next_le (k : Kernel) (v : Value) (before : Digest) (phase : Phase) :
    (phase.next k v before).left ≤ phase.left - 1 := by
  cases phase with
  | select remaining =>
    cases remaining with
    | nil => exact Nat.le_refl 0
    | cons p rest =>
      simp only [next]
      cases k.match? p v with
      | none => exact Nat.le_refl _
      | some bindings => exact Nat.le_add_left 1 rest.length
  | apply p bindings => exact Nat.le_refl 0
  | done outcome => exact Nat.le_refl 0

/-- After enough transitions the machine is done, and has come to what it was going to. -/
theorem iterate_next {n : Nat} {phase : Phase} (h : phase.left ≤ n) :
    (next k v before)^[n] phase = .done (phase.verdict k v before) := by
  induction n generalizing phase with
  | zero =>
    cases phase with
    | select remaining => simp [left] at h
    | apply p bindings => simp [left] at h
    | done outcome => rfl
  | succ n ih =>
    have hleft := left_next_le k v before phase
    rw [Function.iterate_succ_apply, ih (by omega), verdict_next]

end Phase

namespace Kernel

variable {k : Kernel} {v : Value} {before : Digest}

/-! ## Nothing matches -/

/-- A match never comes to the same as no match. -/
theorem apply_eq_noMatch_iff :
    k.apply v before = .stalled .noMatch ↔ ∀ p ∈ k.catalog.projections, k.match? p v = none := by
  rcases k.apply_cases v before with ⟨hstall, hnone⟩ | ⟨p, bindings, hfirst, hcommit⟩
  · exact iff_of_true hstall hnone
  · refine iff_of_false (fun hstall => ?_) fun hnone => ?_
    · have hfired : (k.commit p bindings before).fired? = some p.id := fired?_commit p bindings
      rw [← hcommit, hstall] at hfired
      simp [Outcome.fired?, StallReason.fired?] at hfired
    · have hmatch := hnone p hfirst.mem
      simp [hfirst.match?_eq] at hmatch

theorem exists_firstMatch (h : ∃ p ∈ k.catalog.projections, k.match? p v ≠ none) :
    ∃ p bindings, k.FirstMatch v p bindings := by
  rcases k.forall_none_or_exists v k.catalog.projections with
    hnone | ⟨earlier, p, later, bindings, hps, hearlier, hmatch⟩
  · obtain ⟨p, hp, hmatch⟩ := h
    exact absurd (hnone p hp) hmatch
  · exact ⟨p, bindings, earlier, later, hps, hearlier, hmatch⟩

/-! ## Changing the projections -/

/-- Changes of a list of projections that are none to a step from the value: anything may stand
behind a match, and one that does not match may go. -/
inductive Edit (k : Kernel) (v : Value) : List Projection → List Projection → Prop where
  | behind {p : Projection} (hmatch : k.match? p v ≠ none)
      (earlier later later' : List Projection) :
      Edit k v (earlier ++ p :: later) (earlier ++ p :: later')
  | without {q : Projection} (hnone : k.match? q v = none) (earlier later : List Projection) :
      Edit k v (earlier ++ q :: later) (earlier ++ later)

/-- Projections that come to the same do so behind any others. -/
theorem tryEach_append_congr {xs ys : List Projection}
    (h : k.tryEach v before xs = k.tryEach v before ys) (earlier : List Projection) :
    k.tryEach v before (earlier ++ xs) = k.tryEach v before (earlier ++ ys) := by
  induction earlier with
  | nil => exact h
  | cons p earlier ih => rw [List.cons_append, List.cons_append, tryEach, tryEach, ih]

theorem Edit.tryEach_eq {ps ps' : List Projection} (h : k.Edit v ps ps') (before : Digest) :
    k.tryEach v before ps = k.tryEach v before ps' := by
  cases h with
  | behind hmatch earlier later later' =>
    obtain ⟨bindings, hbindings⟩ := Option.ne_none_iff_exists'.1 hmatch
    refine tryEach_append_congr ?_ earlier
    rw [tryEach, tryEach, hbindings]
  | without hnone earlier later =>
    refine tryEach_append_congr ?_ earlier
    rw [tryEach, hnone]

theorem tryEach_of_edits {ps ps' : List Projection} (h : Relation.ReflTransGen (k.Edit v) ps ps')
    (before : Digest) : k.tryEach v before ps = k.tryEach v before ps' := by
  induction h with
  | refl => rfl
  | tail _ hedit ih => exact ih.trans (hedit.tryEach_eq before)

/-- Trying projections asks the kernel for its limits and not for its catalog. -/
theorem tryEach_catalog (c : Catalog) (ps : List Projection) :
    Kernel.tryEach ⟨c, k.limits⟩ v before ps = k.tryEach v before ps := by
  induction ps with
  | nil => rfl
  | cons p rest ih =>
    rw [tryEach, tryEach, ih]
    rfl

/-- A step with an edited catalog comes to the same. -/
theorem outcome_of_edits {ps : List Projection}
    (h : Relation.ReflTransGen (k.Edit v) k.catalog.projections ps) :
    Kernel.outcome ⟨⟨ps⟩, k.limits⟩ v = k.outcome v := by
  have happly : Kernel.apply ⟨⟨ps⟩, k.limits⟩ v v.digest = k.apply v v.digest := by
    rw [apply, apply, tryEach_catalog, tryEach_of_edits h]
  unfold outcome
  rw [happly]
  rfl

/-- The first match decides a step alone. The machine of phases comes to an outcome. It is that
nothing matched exactly if no projection matches the value; and if one does, then the first that
does decides whether the step stalls for an unbound name, is out of bounds, changes nothing or makes
a new value. As long as the projections still make a catalog, nothing that stands behind a match
counts, nor does a projection that does not match. -/
theorem outcome_firstMatch (hv : k.accept v = .ok ()) :
    (∃ o, k.outcome v = .ok o ∧ ∀ n, k.catalog.size < n →
      (Phase.next k v v.digest)^[n] (.select k.catalog.projections) = .done o) ∧
    (k.outcome v = .ok (.stalled .noMatch) ↔
      ∀ p ∈ k.catalog.projections, k.match? p v = none) ∧
    ((∃ p ∈ k.catalog.projections, k.match? p v ≠ none) →
      ∃ p bindings, k.FirstMatch v p bindings ∧
        ∀ o, k.outcome v = .ok o ↔ k.ComesTo p bindings v.digest o) ∧
    ∀ setLimits ps c, Relation.ReflTransGen (k.Edit v) k.catalog.projections ps →
      Catalog.ofList setLimits ps = .ok c → Kernel.outcome ⟨c, k.limits⟩ v = k.outcome v := by
  have houtcome := outcome_of_accept hv
  refine ⟨⟨_, houtcome, fun n hn => ?_⟩, ?_, fun hsome => ?_, fun setLimits ps c hedits hc => ?_⟩
  · exact Phase.iterate_next hn
  · rw [houtcome, Except.ok.injEq, apply_eq_noMatch_iff]
  · obtain ⟨p, bindings, hfirst⟩ := exists_firstMatch hsome
    refine ⟨p, bindings, hfirst, fun o => ?_⟩
    rw [houtcome, Except.ok.injEq, apply_of_firstMatch hfirst, commit_eq_iff]
  · obtain ⟨rfl, -⟩ := (Catalog.ofList_eq_ok_iff setLimits ps c).1 hc
    exact outcome_of_edits hedits

/-- The second of three projections matches first and has a body that cannot be filled in, and the
third one would match as well. -/
def layered : Kernel :=
  ⟨⟨[⟨"other", .int 2, .null⟩, ⟨"broken", .map [("k", .site "v")], .site "missing"⟩,
    ⟨"fallback", .map [("k", .site "v")], .str "ok"⟩]⟩, {}⟩

theorem outcome_firstMatch_layered :
    let v : Value := .map [("k", .int 1)]
    let stall : Outcome := .stalled (.unbound "broken" "missing")
    let alone : Catalog := ⟨[⟨"broken", .map [("k", .site "v")], .site "missing"⟩]⟩
    layered.accept v = .ok () ∧ layered.outcome v = .ok stall ∧
      (Phase.next layered v v.digest)^[4] (.select layered.catalog.projections) = .done stall ∧
      (∃ p bindings, layered.FirstMatch v p bindings ∧
        layered.ComesTo p bindings v.digest stall) ∧
      Relation.ReflTransGen (layered.Edit v) layered.catalog.projections alone.projections ∧
      Catalog.ofList {} alone.projections = .ok alone ∧
      Kernel.outcome ⟨alone, layered.limits⟩ v = .ok stall := by
  intro v stall alone
  have hv : layered.accept v = .ok () := rfl
  have hstall : layered.outcome v = .ok stall := rfl
  obtain ⟨⟨o, ho, hphases⟩, -, hdecides, hedited⟩ := outcome_firstMatch hv
  obtain rfl : o = stall := Except.ok.inj (ho.symm.trans hstall)
  obtain ⟨p, bindings, hfirst, hcomes⟩ :=
    hdecides ⟨⟨"broken", .map [("k", .site "v")], .site "missing"⟩, by simp [layered], by decide⟩
  have hedits : Relation.ReflTransGen (layered.Edit v) layered.catalog.projections
      alone.projections :=
    .tail (.single (.without rfl [] _)) (.behind (by decide) [] _ [])
  have hcatalog : Catalog.ofList {} alone.projections = .ok alone := rfl
  exact ⟨hv, hstall, hphases 4 (by decide), ⟨p, bindings, hfirst, (hcomes stall).1 hstall⟩, hedits,
    hcatalog, (hedited {} _ alone hedits hcatalog).trans hstall⟩

end Kernel

end TreeReduction
