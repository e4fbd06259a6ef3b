import TreeReduction.Proofs.Admission
import TreeReduction.Proofs.Instantiation
import TreeReduction.Proofs.Matching

set_option autoImplicit false

/-!
# What one step does

`Kernel.apply_cases` says everything that a step can do: either no projection matches, or the first
one that does (`Kernel.FirstMatch`) decides alone. `Kernel.ComesTo` says everything that can come of
a match, and `Kernel.commit_eq_reduced_iff` when it rewrites.

A result is only held to the bounds and never searched for reserved keys or floating-point numbers.
It consists of parts of the value and of nodes of a body, and both were admitted, the body under the
limits of the catalog: so it is admissible again, unless these allow floating-point numbers that the
kernel forbids (`Kernel.admissible_of_reduced`).
-/

namespace TreeReduction

namespace Kernel

variable {k : Kernel} {v : Value} {before : Digest}

/-! ## The first match -/

/-- A projection of the catalog matches, and none before it does. -/
def FirstMatch (k : Kernel) (v : Value) (p : Projection) (bindings : Bindings) : Prop :=
  ∃ earlier later, k.catalog.projections = earlier ++ p :: later ∧
    (∀ q ∈ earlier, k.match? q v = none) ∧ k.match? p v = some bindings

theorem FirstMatch.mem {p : Projection} {bindings : Bindings} (h : k.FirstMatch v p bindings) :
    p ∈ k.catalog.projections := by
  obtain ⟨earlier, later, hps, -, -⟩ := h
  simp [hps]

theorem FirstMatch.match?_eq {p : Projection} {bindings : Bindings}
    (h : k.FirstMatch v p bindings) : k.match? p v = some bindings := by
  obtain ⟨_, _, -, -, hmatch⟩ := h
  exact hmatch

/-- Projections that do not match are passed over. -/
theorem tryEach_append {earlier : List Projection} (h : ∀ q ∈ earlier, k.match? q v = none)
    (rest : List Projection) :
    k.tryEach v before (earlier ++ rest) = k.tryEach v before rest := by
  induction earlier with
  | nil => rfl
  | cons p earlier ih =>
    rw [List.forall_mem_cons] at h
    rw [List.cons_append, tryEach, h.1]
    exact ih h.2

theorem apply_of_firstMatch {p : Projection} {bindings : Bindings}
    (h : k.FirstMatch v p bindings) (before : Digest) :
    k.apply v before = k.commit p bindings before := by
  obtain ⟨earlier, later, hps, hearlier, hmatch⟩ := h
  rw [apply, hps, tryEach_append hearlier, tryEach, hmatch]

/-- Of projections in order, either none matches or one does first. -/
theorem forall_none_or_exists (k : Kernel) (v : Value) (projections : List Projection) :
    (∀ p ∈ projections, k.match? p v = none) ∨
    ∃ earlier p later bindings, projections = earlier ++ p :: later ∧
      (∀ q ∈ earlier, k.match? q v = none) ∧ k.match? p v = some bindings := by
  induction projections with
  | nil => exact .inl (by simp)
  | cons p rest ih =>
    cases hmatch : k.match? p v with
    | some bindings => exact .inr ⟨[], p, rest, bindings, rfl, by simp, hmatch⟩
    | none =>
      rcases ih with hnone | ⟨earlier, q, later, bindings, rfl, hearlier, hq⟩
      · exact .inl (List.forall_mem_cons.2 ⟨hmatch, hnone⟩)
      · exact .inr ⟨p :: earlier, q, later, bindings, rfl,
          List.forall_mem_cons.2 ⟨hmatch, hearlier⟩, hq⟩

/-- A step either stalls because nothing matches or is decided by the first match. -/
theorem apply_cases (k : Kernel) (v : Value) (before : Digest) :
    (k.apply v before = .stalled .noMatch ∧ ∀ p ∈ k.catalog.projections, k.match? p v = none) ∨
    ∃ p bindings, k.FirstMatch v p bindings ∧ k.apply v before = k.commit p bindings before := by
  rcases k.forall_none_or_exists v k.catalog.projections with
    hnone | ⟨earlier, p, later, bindings, hps, hearlier, hmatch⟩
  · refine .inl ⟨?_, hnone⟩
    rw [apply, ← List.append_nil k.catalog.projections, tryEach_append hnone, tryEach]
  · have hfirst : k.FirstMatch v p bindings := ⟨earlier, later, hps, hearlier, hmatch⟩
    exact .inr ⟨p, bindings, hfirst, apply_of_firstMatch hfirst before⟩

/-! ## What comes of a match -/

/-- What comes of a match, in the order in which it is found out: a name of the body is not bound,
the body filled in breaks the bound on depth, or if not that the one on width, it is the value that
was there before, or it is a new one. -/
inductive ComesTo (k : Kernel) (p : Projection) (bindings : Bindings) (before : Digest) :
    Outcome → Prop where
  | unbound {name : String} (hname : bindings.firstUnbound? p.body.variableNames = some name) :
      ComesTo k p bindings before (.stalled (.unbound p.id name))
  | deep (hbound : bindings.firstUnbound? p.body.variableNames = none)
      (hdeep : k.limits.maxDepth < (p.body.fill bindings).depth) :
      ComesTo k p bindings before (.exhausted .depth p.id)
  | wide (hbound : bindings.firstUnbound? p.body.variableNames = none)
      (hdepth : (p.body.fill bindings).depth ≤ k.limits.maxDepth)
      (hwide : k.limits.maxWidth < (p.body.fill bindings).width) :
      ComesTo k p bindings before (.exhausted .width p.id)
  | fixedPoint (hbound : bindings.firstUnbound? p.body.variableNames = none)
      (hdepth : (p.body.fill bindings).depth ≤ k.limits.maxDepth)
      (hwidth : (p.body.fill bindings).width ≤ k.limits.maxWidth)
      (hsame : (p.body.fill bindings).digest = before) :
      ComesTo k p bindings before (.stalled (.fixedPoint p.id))
  | reduced (hbound : bindings.firstUnbound? p.body.variableNames = none)
      (hdepth : (p.body.fill bindings).depth ≤ k.limits.maxDepth)
      (hwidth : (p.body.fill bindings).width ≤ k.limits.maxWidth)
      (hnew : (p.body.fill bindings).digest ≠ before) :
      ComesTo k p bindings before
        (.reduced p.id (p.body.fill bindings) (p.body.fill bindings).digest)

section ComesTo

variable {p : Projection} {bindings : Bindings}

/-- A filled-in body that breaks the bounds is dropped. -/
theorem commit_of_overrun? {next : Value} (hbody : p.body.instantiate bindings = .ok next)
    {resource : Resource} (hover : next.overrun? k.limits = some resource) :
    k.commit p bindings before = .exhausted resource p.id := by
  rw [commit, hbody]
  simp only [hover]

/-- What a filled-in body that keeps the bounds comes to is decided by its digest. -/
theorem commit_of_instantiate {next : Value} (hbody : p.body.instantiate bindings = .ok next)
    (hover : next.overrun? k.limits = none) :
    k.commit p bindings before =
      if next.digest = before then .stalled (.fixedPoint p.id)
      else .reduced p.id next next.digest := by
  rw [commit, hbody]
  simp only [hover]

theorem ComesTo.commit_eq {o : Outcome} (h : k.ComesTo p bindings before o) :
    k.commit p bindings before = o := by
  have hfill : bindings.firstUnbound? p.body.variableNames = none →
      p.body.instantiate bindings = .ok (p.body.fill bindings) := fun hbound =>
    (Value.instantiate_eq_ok_iff bindings).2 ⟨hbound, rfl⟩
  cases h with
  | @unbound name hname =>
    have hbody : p.body.instantiate bindings = .error ⟨name⟩ :=
      (Value.instantiate_eq_error_iff bindings).2 hname
    rw [commit, hbody]
  | deep hbound hdeep =>
    refine commit_of_overrun? (hfill hbound) ?_
    rw [Value.overrun?, if_pos hdeep]
  | wide hbound hdepth hwide =>
    refine commit_of_overrun? (hfill hbound) ?_
    rw [Value.overrun?, if_neg (Nat.not_lt.2 hdepth), if_pos hwide]
  | fixedPoint hbound hdepth hwidth hsame =>
    have hwithin := (Value.overrun?_eq_none_iff _ k.limits).2 ⟨hdepth, hwidth⟩
    rw [commit_of_instantiate (hfill hbound) hwithin, if_pos hsame]
  | reduced hbound hdepth hwidth hnew =>
    have hwithin := (Value.overrun?_eq_none_iff _ k.limits).2 ⟨hdepth, hwidth⟩
    rw [commit_of_instantiate (hfill hbound) hwithin, if_neg hnew]

theorem exists_comesTo (k : Kernel) (p : Projection) (bindings : Bindings) (before : Digest) :
    ∃ o, k.ComesTo p bindings before o := by
  cases hbound : bindings.firstUnbound? p.body.variableNames with
  | some name => exact ⟨_, .unbound hbound⟩
  | none =>
    by_cases hdepth : (p.body.fill bindings).depth ≤ k.limits.maxDepth
    · by_cases hwidth : (p.body.fill bindings).width ≤ k.limits.maxWidth
      · by_cases hsame : (p.body.fill bindings).digest = before
        · exact ⟨_, .fixedPoint hbound hdepth hwidth hsame⟩
        · exact ⟨_, .reduced hbound hdepth hwidth hsame⟩
      · exact ⟨_, .wide hbound hdepth (Nat.not_le.1 hwidth)⟩
    · exact ⟨_, .deep hbound (Nat.not_le.1 hdepth)⟩

/-- Every match comes to exactly one thing. -/
theorem commit_eq_iff {o : Outcome} :
    k.commit p bindings before = o ↔ k.ComesTo p bindings before o := by
  constructor
  · intro hcommit
    obtain ⟨found, hfound⟩ := k.exists_comesTo p bindings before
    rwa [← hcommit, hfound.commit_eq]
  · exact ComesTo.commit_eq

/-- A match comes to nothing when the body has a name that it did not bind; the first is told. -/
theorem commit_eq_unbound_iff {id name : String} :
    k.commit p bindings before = .stalled (.unbound id name) ↔
      p.id = id ∧ bindings.firstUnbound? p.body.variableNames = some name := by
  rw [commit_eq_iff]
  constructor
  · intro h
    cases h with
    | unbound hname => exact ⟨rfl, hname⟩
  · rintro ⟨rfl, hname⟩
    exact .unbound hname

/-- A match rewrites when the body can be filled in, keeps the bounds and has another digest. -/
theorem commit_eq_reduced_iff {id : String} {next : Value} {after : Digest} :
    k.commit p bindings before = .reduced id next after ↔
      p.id = id ∧ p.body.instantiate bindings = .ok next ∧ next.overrun? k.limits = none ∧
        next.digest = after ∧ after ≠ before := by
  rw [commit_eq_iff, Value.instantiate_eq_ok_iff, Value.overrun?_eq_none_iff]
  constructor
  · intro h
    cases h with
    | reduced hbound hdepth hwidth hnew =>
      exact ⟨rfl, ⟨hbound, rfl⟩, ⟨hdepth, hwidth⟩, rfl, hnew⟩
  · rintro ⟨rfl, ⟨hbound, rfl⟩, ⟨hdepth, hwidth⟩, rfl, hnew⟩
    exact .reduced hbound hdepth hwidth hnew

end ComesTo

/-- A step that rewrote did so by a projection of the catalog that matched. -/
theorem apply_eq_reduced {id : String} {next : Value} {after : Digest}
    (h : k.apply v before = .reduced id next after) :
    ∃ p ∈ k.catalog.projections, ∃ bindings, k.match? p v = some bindings ∧
      k.commit p bindings before = .reduced id next after := by
  rcases k.apply_cases v before with ⟨hstall, -⟩ | ⟨p, bindings, hfirst, hcommit⟩
  · simp [hstall] at h
  · exact ⟨p, hfirst.mem, bindings, hfirst.match?_eq, hcommit ▸ h⟩

theorem digest_of_reduced {id : String} {next : Value} {after : Digest}
    (h : k.apply v before = .reduced id next after) : next.digest = after := by
  obtain ⟨p, -, bindings, -, hcommit⟩ := apply_eq_reduced h
  exact (commit_eq_reduced_iff.1 hcommit).2.2.2.1

theorem digest_ne_of_reduced {id : String} {next : Value} {after : Digest}
    (h : k.apply v before = .reduced id next after) : after ≠ before := by
  obtain ⟨p, -, bindings, -, hcommit⟩ := apply_eq_reduced h
  exact (commit_eq_reduced_iff.1 hcommit).2.2.2.2

theorem overrun?_of_reduced {id : String} {next : Value} {after : Digest}
    (h : k.apply v before = .reduced id next after) : next.overrun? k.limits = none := by
  obtain ⟨p, -, bindings, -, hcommit⟩ := apply_eq_reduced h
  exact (commit_eq_reduced_iff.1 hcommit).2.2.1

/-- No step spends the budget of steps. -/
theorem apply_ne_exhausted_steps (k : Kernel) (v : Value) (before : Digest) (id : String) :
    k.apply v before ≠ .exhausted .steps id := by
  rcases k.apply_cases v before with ⟨hstall, -⟩ | ⟨p, bindings, -, hcommit⟩
  · simp [hstall]
  · rw [hcommit, ne_eq, commit_eq_iff]
    intro h
    cases h

/-- Whatever comes of a match is due to the projection that matched. -/
theorem fired?_commit (p : Projection) (bindings : Bindings) :
    (k.commit p bindings before).fired? = some p.id := by
  obtain ⟨o, ho⟩ := k.exists_comesTo p bindings before
  rw [ho.commit_eq]
  cases ho <;> rfl

/-- Only projections of the catalog fire. -/
theorem mem_ids_of_fired? {outcome : Outcome} (h : k.apply v before = outcome) {id : String}
    (hid : outcome.fired? = some id) : id ∈ k.catalog.ids := by
  subst h
  rcases k.apply_cases v before with ⟨hstall, -⟩ | ⟨p, bindings, hfirst, hcommit⟩
  · simp [hstall, Outcome.fired?, StallReason.fired?] at hid
  · rw [hcommit, fired?_commit, Option.some.injEq] at hid
    exact hid ▸ List.mem_map_of_mem hfirst.mem

/-- The projection that fires is the first match, since no other one has its id. -/
theorem firstMatch_of_fired? {limits : Limits} {projections : List Projection}
    (hcatalog : Catalog.ofList limits projections = .ok k.catalog) {p : Projection}
    (hp : p ∈ k.catalog.projections) (h : (k.apply v before).fired? = some p.id) :
    ∃ bindings, k.FirstMatch v p bindings ∧ k.apply v before = k.commit p bindings before := by
  rcases k.apply_cases v before with ⟨hstall, -⟩ | ⟨q, bindings, hfirst, hcommit⟩
  · simp [hstall, Outcome.fired?, StallReason.fired?] at h
  · rw [hcommit, fired?_commit, Option.some.injEq] at h
    have hq := Catalog.get?_of_mem hcatalog hfirst.mem
    rw [h, Catalog.get?_of_mem hcatalog hp, Option.some.injEq] at hq
    exact hq ▸ ⟨bindings, hfirst, hcommit⟩

/-- A single step of what is accepted cannot be refused. -/
theorem outcome_of_accept (hv : k.accept v = .ok ()) :
    k.outcome v = .ok (k.apply v v.digest) := by
  rw [outcome, hv]

/-! ## Rewriting keeps values admissible -/

theorem shallow_finiteFloats :
    Value.Shallow fun u => ∀ x, u = .float x → x.isFinite = true :=
  ⟨by simp, by simp⟩

theorem shallow_floatFree : Value.Shallow fun u => ∀ x, u ≠ .float x :=
  ⟨by simp, by simp⟩

theorem shallow_lacks (key : String) :
    Value.Shallow fun u => ∀ entries, u = .map entries → ∀ p ∈ entries, p.1 ≠ key := by
  refine ⟨by simp, ?_⟩
  rintro entries entries' hkeys hlacks _ heq p hp
  simp only [Value.map.injEq] at heq
  subst heq
  have hmem : p.1 ∈ entries.map (·.1) := hkeys ▸ List.mem_map_of_mem hp
  obtain ⟨q, hq, hqp⟩ := List.mem_map.1 hmem
  exact hqp ▸ hlacks entries rfl q hq

/-- What holds everywhere in a value and in all bodies holds everywhere in a rewritten value. -/
theorem everywhere_of_reduced {P : Value → Prop} (hP : Value.Shallow P)
    (hbodies : ∀ p ∈ k.catalog.projections, p.body.Everywhere P) (hv : v.Everywhere P)
    {id : String} {next : Value} {after : Digest}
    (h : k.apply v before = .reduced id next after) : next.Everywhere P := by
  obtain ⟨p, hp, bindings, hmatch, hcommit⟩ := apply_eq_reduced h
  refine Value.everywhere_instantiate hP (fun q hq => ?_) (hbodies p hp)
    (commit_eq_reduced_iff.1 hcommit).2.1
  exact hv.part (Value.part_of_mem_match? hmatch hq)

section Catalog

variable {setLimits : Limits} {projections : List Projection}
  (hcatalog : Catalog.ofList setLimits projections = .ok k.catalog)

include hcatalog

/-- A rewritten value has no reserved key, since neither the value before it nor any body has. -/
theorem unreserved_of_reduced (hv : v.Unreserved) {id : String} {next : Value} {after : Digest}
    (h : k.apply v before = .reduced id next after) : next.Unreserved := by
  intro key hkey
  refine everywhere_of_reduced (shallow_lacks key) (fun p hp => ?_) (hv key hkey) h
  exact (Catalog.admissible_of_ofList hcatalog hp).2.unreserved key hkey

theorem finiteFloats_of_reduced (hv : v.FiniteFloats) {id : String} {next : Value} {after : Digest}
    (h : k.apply v before = .reduced id next after) : next.FiniteFloats := by
  refine everywhere_of_reduced shallow_finiteFloats (fun p hp => ?_) hv h
  exact (Catalog.admissible_of_ofList hcatalog hp).2.floats.1

/-- The value after a step that rewrote could have been admitted like the one before it, if the
bodies hold no floating-point numbers that the kernel forbids. -/
theorem admissible_of_reduced
    (hfloats : k.limits.allowFloats = true ∨ ∀ p ∈ k.catalog.projections, p.body.FloatFree)
    (hv : v.Admissible k.limits) {id : String} {next : Value} {after : Digest}
    (h : k.apply v before = .reduced id next after) : next.Admissible k.limits := by
  obtain ⟨hdepth, hwidth⟩ :=
    (Value.overrun?_eq_none_iff next k.limits).1 (overrun?_of_reduced h)
  refine ⟨hdepth, hwidth, ⟨finiteFloats_of_reduced hcatalog hv.floats.1 h, ?_⟩,
    unreserved_of_reduced hcatalog hv.unreserved h⟩
  rcases hfloats with hallowed | hfree
  · exact .inl hallowed
  · refine hv.floats.2.imp_right fun hvfree => ?_
    exact everywhere_of_reduced shallow_floatFree hfree hvfree h

end Catalog

end Kernel

end TreeReduction
