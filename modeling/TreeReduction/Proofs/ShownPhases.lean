import TreeReduction.Kernel.Log
import TreeReduction.Proofs.Chains
import TreeReduction.Proofs.FirstMatch

set_option autoImplicit false

/-!
# The phases that a step shows

A step that is watched shows every phase as a value before it goes on to the next (`Phase.walk`).
Selecting loses one projection from its front for each that does not match, so what is shown tells
how far the step had to look: `Kernel.walk_shows` lists it, whether a projection matches or none.

Whatever is shown holds reserved keys, and no kernel accepts it (`Phase.refused_toValue`).
-/

namespace TreeReduction

namespace Phase

variable {k : Kernel} {v : Value} {before : Digest}

/-! ## Walking through the phases -/

/-- What a decided step came to. -/
def outcome? : Phase → Option Outcome
  | .done outcome => some outcome
  | _ => none

theorem left_next_lt (k : Kernel) (v : Value) (before : Digest) {phase : Phase}
    (h : phase.outcome? = none) : (phase.next k v before).left < phase.left := by
  have hnext := left_next_le k v before phase
  have hleft : 0 < phase.left := by
    cases phase with
    | select remaining => exact Nat.succ_pos _
    | apply p bindings => exact Nat.one_pos
    | done outcome => simp [outcome?] at h
  omega

/-- Shows a phase and goes on to the next until the step is decided. Answers what was shown, in
order, and what the step came to. -/
def walk (k : Kernel) (v : Value) (before : Digest) (phase : Phase) : List Value × Outcome :=
  match _h : phase.outcome? with
  | some outcome => ([phase.toValue v], outcome)
  | none =>
    let later := walk k v before (phase.next k v before)
    (phase.toValue v :: later.1, later.2)
  termination_by phase.left
  decreasing_by exact left_next_lt k v before _h

theorem walk_done (outcome : Outcome) :
    walk k v before (.done outcome) = ([toValue v (.done outcome)], outcome) := by
  rw [walk]
  rfl

theorem walk_of_next {phase : Phase} (h : phase.outcome? = none) :
    walk k v before phase =
      (phase.toValue v :: (walk k v before (phase.next k v before)).1,
        (walk k v before (phase.next k v before)).2) := by
  rw [walk]
  split
  · simp_all
  · rfl

/-- The walk shows the phases of a step and comes to what the step comes to. -/
theorem walk_select (ps : List Projection) :
    walk k v before (.select ps) =
      ((k.phasesFrom v before ps).map (·.toValue v), k.tryEach v before ps) := by
  induction ps with
  | nil => rw [walk_of_next rfl, next, walk_done, Kernel.phasesFrom, Kernel.tryEach]; rfl
  | cons p rest ih =>
    rw [walk_of_next rfl, next, Kernel.phasesFrom, Kernel.tryEach]
    cases k.match? p v with
    | none => simp only [ih, List.map_cons]
    | some bindings =>
      have happly : outcome? (.apply p bindings) = none := rfl
      simp only [walk_of_next happly, next, walk_done, List.map_cons, List.map_nil]

/-! ## What is shown -/

/-- What is shown while projections are looked through, of which a chain is left. -/
def selecting (v : Value) (rest : Chain) : Value :=
  .map (Entries.ofList [("_mode", .str "select"), ("_step", v), ("_projs", rest.toValue)])

/-- What is shown when a projection has matched. -/
def applying (v : Value) (p : Projection) (bindings : Bindings) : Value :=
  .map (Entries.ofList [("_mode", .str "apply"), ("_step", v), ("_match", p.toValue),
    ("_bindings", .map bindings)])

/-- What is shown when a step is decided, with the id of the projection that fired. -/
def deciding (v id : Value) : Value :=
  .map (Entries.ofList [("_mode", .str "done"), ("_step", v), ("_match", id)])

theorem toValue_select (remaining : List Projection) :
    toValue v (.select remaining) = selecting v (.ofList remaining) := by
  simp (disch := decide) only [selecting, Chain.toValue_ofList, Entries.ofList, List.foldl_cons,
    List.foldl_nil, Entries.insert, if_pos, if_neg]
  rfl

theorem map_toValue_select (ps : List Projection) (n : Nat) :
    ((List.range n).map fun m => select (ps.drop m)).map (·.toValue v) =
      (List.range n).map fun m => selecting v (.ofList (ps.drop m)) := by
  rw [List.map_map]
  exact List.map_congr_left fun m _ => toValue_select (ps.drop m)

theorem toValue_apply (p : Projection) (bindings : Bindings) :
    toValue v (.apply p bindings) = applying v p bindings := by
  simp (disch := decide) only [applying, Entries.ofList, List.foldl_cons, List.foldl_nil,
    Entries.insert, if_pos, if_neg]
  rfl

theorem toValue_done (outcome : Outcome) :
    toValue v (.done outcome) = deciding v (idValue outcome.fired?) := by
  simp (disch := decide) only [deciding, Entries.ofList, List.foldl_cons, List.foldl_nil,
    Entries.insert, if_pos, if_neg]
  rfl

/-- Whatever is shown is shown around the value that the step is taken from. -/
theorem exists_entries_toValue (v : Value) (phase : Phase) :
    ∃ entries, phase.toValue v = .map entries ∧ ("_step", v) ∈ entries ∧
      Entries.get? entries "_step" = some v := by
  cases phase <;> exact ⟨_, rfl, by simp, rfl⟩

/-- No kernel accepts what is shown, since it has the reserved keys of a phase. -/
theorem refused_toValue (v : Value) (phase : Phase) (other : Kernel) :
    ∃ e, other.accept (phase.toValue v) = .error e := by
  obtain ⟨entries, hentries, hstep, -⟩ := exists_entries_toValue v phase
  cases haccept : other.accept (phase.toValue v) with
  | error e => exact ⟨e, rfl⟩
  | ok _ =>
    have hunreserved := ((other.accept_eq_ok_iff _).1 haccept).unreserved
    rw [hentries, Value.unreserved_map_iff] at hunreserved
    have hreserved : "_step" ∈ Value.reservedKeys := by decide
    exact absurd hreserved (hunreserved.1 _ hstep)

end Phase

namespace Kernel

variable {k : Kernel} {v : Value} {before : Digest}

/-- Projections that do not match are shown one after the other, each with all that are left. -/
theorem phasesFrom_append (before : Digest) {earlier : List Projection}
    (h : ∀ q ∈ earlier, k.match? q v = none) (rest : List Projection) :
    k.phasesFrom v before (earlier ++ rest) =
      (List.range earlier.length).map (fun n => .select ((earlier ++ rest).drop n)) ++
        k.phasesFrom v before rest := by
  induction earlier with
  | nil => rfl
  | cons p earlier ih =>
    rw [List.forall_mem_cons] at h
    rw [List.cons_append, phasesFrom, h.1, List.length_cons, List.range_succ_eq_map]
    simp [ih h.2, Function.comp_def]

/-- Of projections none of which matches, all are shown, and then that none is left. -/
theorem phasesFrom_of_forall_none {ps : List Projection} (h : ∀ q ∈ ps, k.match? q v = none) :
    k.phasesFrom v before ps =
      (List.range ps.length).map (fun n => .select (ps.drop n)) ++
        [.select [], .done (.stalled .noMatch)] := by
  have happend := phasesFrom_append before h []
  rwa [List.append_nil, phasesFrom] at happend

/-- Projections are shown up to the first that matches, which is then applied. -/
theorem phasesFrom_of_match {ps : List Projection} {i : Nat} {q : Projection} {bindings : Bindings}
    (hq : ps[i]? = some q) (hearlier : ∀ r ∈ ps.take i, k.match? r v = none)
    (hmatch : k.match? q v = some bindings) :
    k.phasesFrom v before ps =
      (List.range (i + 1)).map (fun n => .select (ps.drop n)) ++
        [.apply q bindings, .done (k.commit q bindings before)] := by
  have hsplit := eq_take_append_of_getElem? hq
  obtain ⟨hi, hget⟩ := List.getElem?_eq_some_iff.1 hq
  have happend := phasesFrom_append before hearlier (q :: ps.drop (i + 1))
  rw [← hsplit, List.length_take_of_le (Nat.le_of_lt hi), phasesFrom, hmatch] at happend
  have hdrop : ps.drop i = q :: ps.drop (i + 1) := hget ▸ List.drop_eq_getElem_cons hi
  rw [happend, List.range_succ, List.map_append, ← hdrop, List.append_assoc]
  rfl

/-- A step from an accepted value shows its phases and tells them to the log. If the projection at a
place is the first that matches, the chain that is left is shown once from each projection up to
that place, then the projection with its bindings, and then its id. If none matches, the chain is
shown once from each projection, once more when it is at its end, and then that nothing fired. All
that is shown is shown around the value, and no kernel accepts it. -/
theorem walk_shows (hv : k.accept v = .ok ()) :
    let shown := Phase.walk k v v.digest (.select k.catalog.projections)
    let ps := k.catalog.projections
    k.outcome v = .ok shown.2 ∧
    k.stepLog .trace v =
      shown.1.map (fun u => ⟨.trace, "kernel phase", [("phase", u.canonical)]⟩) ∧
    (∀ i q bindings, ps[i]? = some q → (∀ r ∈ ps.take i, k.match? r v = none) →
      k.match? q v = some bindings →
        shown.1 = (List.range (i + 1)).map (fun n => Phase.selecting v (.ofList (ps.drop n))) ++
          [Phase.applying v q bindings, Phase.deciding v (.str q.id)]) ∧
    ((∀ r ∈ ps, k.match? r v = none) →
      shown.1 = (List.range ps.length).map (fun n => Phase.selecting v (.ofList (ps.drop n))) ++
        [.map (Entries.ofList [("_mode", .str "select"), ("_step", v), ("_projs", .null)]),
          Phase.deciding v .null]) ∧
    ∀ u ∈ shown.1, u.get? "_step" = some v ∧ ∀ other : Kernel, ∃ e, other.accept u = .error e := by
  intro shown ps
  have hshown : shown = ((k.phases v v.digest).map (·.toValue v), k.apply v v.digest) :=
    Phase.walk_select ps
  refine ⟨?_, ?_, fun i q bindings hq hearlier hmatch => ?_, fun hnone => ?_, fun u hu => ?_⟩
  · rw [hshown]
    exact outcome_of_accept hv
  · rw [hshown, stepLog, hv, List.map_map]
    rfl
  · rw [hshown, phases, phasesFrom_of_match hq hearlier hmatch, List.map_append,
      Phase.map_toValue_select, List.map_cons, List.map_cons, List.map_nil, Phase.toValue_apply,
      Phase.toValue_done, fired?_commit]
    rfl
  · rw [hshown, phases, phasesFrom_of_forall_none hnone, List.map_append,
      Phase.map_toValue_select, List.map_cons, List.map_cons, List.map_nil, Phase.toValue_select,
      Phase.toValue_done]
    rfl
  · rw [hshown] at hu
    obtain ⟨phase, -, rfl⟩ := List.mem_map.1 hu
    obtain ⟨entries, hentries, -, hstep⟩ := Phase.exists_entries_toValue v phase
    exact ⟨hentries ▸ hstep, Phase.refused_toValue v phase⟩

/-- One value that the second of three projections matches, and one that none does. -/
theorem walk_shows_layered :
    let shown (v : Value) :=
      (Phase.walk layered v v.digest (.select layered.catalog.projections)).1
    let broken : Projection := ⟨"broken", .map [("k", .site "v")], .site "missing"⟩
    let fallback : Projection := ⟨"fallback", .map [("k", .site "v")], .str "ok"⟩
    let chains : List Chain :=
      [.ofList layered.catalog.projections, .ofList [broken, fallback], .ofList [fallback]]
    let v : Value := .map [("k", .int 1)]
    let u : Value := .int 1
    layered.accept v = .ok () ∧ layered.accept u = .ok () ∧
      shown v = (chains.take 2).map (Phase.selecting v) ++
        [Phase.applying v broken [("v", .int 1)], Phase.deciding v (.str "broken")] ∧
      shown u = chains.map (Phase.selecting u) ++
        [.map (Entries.ofList [("_mode", .str "select"), ("_step", u), ("_projs", .null)]),
          Phase.deciding u .null] := by
  intro shown broken fallback chains v u
  have hv : layered.accept v = .ok () := rfl
  have hu : layered.accept u = .ok () := rfl
  obtain ⟨-, -, hmatched, -⟩ := walk_shows hv
  obtain ⟨-, -, -, hnone, -⟩ := walk_shows hu
  refine ⟨hv, hu, hmatched 1 broken [("v", .int 1)] rfl ?_ rfl, hnone ?_⟩
  · decide
  · decide

end Kernel

end TreeReduction
