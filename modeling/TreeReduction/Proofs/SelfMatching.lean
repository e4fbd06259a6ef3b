import TreeReduction.Proofs.BoundNames
import TreeReduction.Proofs.DepthGuard

set_option autoImplicit false

/-!
# Values that match themselves

Taken for a pattern, a value is compared with itself: whatever spelling it is seen through, every
child stands beside the same child (`Matching.exists_pairs?_self`). Its variable sites come to be
bound to themselves, and a body that is filled in with such bindings stays what it is
(`Value.fill_of_selfBound`). So a projection that makes a value out of the same value changes
nothing when it fires.
-/

namespace TreeReduction

/-- Every name that is bound is bound to its own variable site. -/
def Bindings.SelfBound (bindings : Bindings) : Prop :=
  ∀ q ∈ bindings, q.2 = Value.site q.1

namespace Bindings.SelfBound

variable {bindings : Bindings} (h : bindings.SelfBound)

include h

theorem bindFirst (name : String) : (bindings.bindFirst name (Value.site name)).SelfBound := by
  intro q hq
  rcases mem_bindFirst hq with hold | rfl
  · exact h q hold
  · rfl

theorem get?_eq_some_iff {name : String} {u : Value} :
    Entries.get? bindings name = some u ↔ name ∈ Entries.keys bindings ∧ u = Value.site name := by
  constructor
  · intro hu
    have hbound : (Entries.get? bindings name).isSome := by rw [hu, Option.isSome_some]
    exact ⟨Entries.isSome_get?_iff.1 hbound, h _ (Entries.mem_of_get? hu)⟩
  · rintro ⟨hname, rfl⟩
    obtain ⟨u, hu⟩ := Option.isSome_iff_exists.1 (Entries.isSome_get?_iff.2 hname)
    rw [hu, Option.some.injEq]
    exact h _ (Entries.mem_of_get? hu)

end Bindings.SelfBound

namespace Value

/-- Filling sites in with themselves changes nothing. -/
theorem fill_of_selfBound {bindings : Bindings} (h : bindings.SelfBound) (v : Value) :
    v.fill bindings = v := by
  induction v using induct with
  | scalar v hv => exact fill_of_isScalar bindings hv
  | list items ih => rw [fill_list, List.map_congr_left ih, List.map_id']
  | map entries ih =>
    cases hname : siteName? entries with
    | some name =>
      have hsite : Value.map entries = site name := variableName?_eq_some_iff.1 hname
      rw [hsite, fill_site]
      cases hu : Entries.get? bindings name with
      | none => rfl
      | some u => exact (h.get?_eq_some_iff.1 hu).2
    | none =>
      have hvalues : Entries.mapValues (fill bindings) entries = entries := by
        conv_rhs => rw [← List.map_id entries]
        exact List.map_congr_left fun p hp => Prod.ext rfl (ih p hp)
      rw [fill_map bindings hname, hvalues]

end Value

namespace Matching

/-- Beside itself, a container has every child beside itself. -/
theorem exists_pairs?_self {v : Value} (hv : v.Ordered) (hscalar : v.isScalar = false) :
    ∃ pairs, pairs? v v = some pairs ∧ ∀ q ∈ pairs, q.1 = q.2 := by
  cases hview : v.view with
  | leaf => simp [Value.view_eq_leaf_iff.1 hview] at hscalar
  | sequence items =>
    have hsame : List.Forall₂ Eq items items := List.forall₂_refl items
    refine ⟨items.zip items, pairs?_of_viewPairs? ?_, fun q hq =>
      (List.forall₂_iff_zip.1 hsame).2 hq⟩
    simp [viewPairs?, hview]
  | dictionary entries =>
    -- the keys of a view ascend, so each is found with what it holds and not with an earlier entry
    have hkeys := Value.ordered_of_dictionary hv hview
    obtain ⟨pairs, hpairs, hsame⟩ := (exists_entryPairs?_iff Eq).2 fun p hp =>
      ⟨p.2, hkeys.get?_of_mem hp, rfl⟩
    refine ⟨pairs, pairs?_of_viewPairs? ?_, hsame⟩
    simp [viewPairs?, hview, hpairs]

/-- Where there is room for a value, it matches itself and binds sites to themselves. -/
theorem exists_extend_self (room : Nat) {v : Value} (hv : v.Ordered) (hdepth : v.depth ≤ room)
    {bindings : Bindings} (hbindings : bindings.SelfBound) :
    ∃ result, extend room v v bindings = some result ∧ Bindings.SelfBound result := by
  induction room using Nat.strongRecOn generalizing v bindings with
  | ind room ih =>
    cases hscalar : v.isScalar with
    | true =>
      rw [extend_of_isScalar hscalar, if_pos (Value.sameScalar_iff.2 ⟨hscalar, rfl⟩)]
      exact ⟨bindings, rfl, hbindings⟩
    | false =>
      cases hname : v.variableName? with
      | some name =>
        rw [extend_of_name hname, Value.variableName?_eq_some_iff.1 hname]
        exact ⟨_, rfl, hbindings.bindFirst name⟩
      | none =>
        obtain ⟨pairs, hpairs, hsame⟩ := exists_pairs?_self hv hscalar
        rw [extend_of_container hscalar hname, hpairs, Option.bind_some,
          if_pos (room_of_pairs? hpairs hdepth)]
        refine exists_foldlM_eq_some pairs bindings (fun q hq b hb => ?_) hbindings
        have hlt := (child_of_mem_pairs? hpairs hq).2.depth_lt
        rw [hsame q hq]
        exact ih (room - 1) (by omega) (hv.part (part_of_mem_pairs? hpairs hq).2) (by omega) hb

end Matching

namespace Value

/-- A value no deeper than the bound matches itself, and what that binds fills it in to itself. -/
theorem exists_match?_self {v : Value} (hv : v.Ordered) {maxDepth : Nat}
    (hdepth : v.depth ≤ maxDepth) :
    ∃ bindings, v.match? maxDepth v = some bindings ∧
      (∀ name u, Entries.get? bindings name = some u ↔
        name ∈ v.variableNames ∧ u = site name) ∧
      v.instantiate bindings = .ok v := by
  have hnil : Bindings.SelfBound [] := fun q hq => absurd hq List.not_mem_nil
  obtain ⟨bindings, hmatch, hself⟩ := Matching.exists_extend_self maxDepth hv hdepth hnil
  have hnames := mem_keys_match?_iff hmatch
  refine ⟨bindings, hmatch, fun name u => ?_, ?_⟩
  · rw [hself.get?_eq_some_iff, hnames]
  · rw [instantiate_eq_ok_iff, fill_of_selfBound hself, Bindings.firstUnbound?_eq_none_iff]
    exact ⟨fun name hname => Entries.isSome_get?_iff.2 ((hnames name).2 hname), rfl⟩

end Value

namespace Kernel

variable {k : Kernel} {v : Value}

/-- What an accepted value is made into by the same value as pattern and body is that value. -/
theorem commit_self (hvo : v.Ordered) (hv : k.accept v = .ok ()) {p : Projection}
    (hpattern : p.pattern = v) (hbody : p.body = v) {bindings : Bindings}
    (hmatch : k.match? p v = some bindings) :
    k.commit p bindings v.digest = .stalled (.fixedPoint p.id) := by
  have hadmissible := (accept_eq_ok_iff k v).1 hv
  obtain ⟨own, hown, -, hfilled⟩ := Value.exists_match?_self hvo hadmissible.depth_le
  obtain rfl : own = bindings := by
    rw [match?, hpattern, hown] at hmatch
    exact Option.some.inj hmatch
  have hwithin : v.overrun? k.limits = none :=
    (Value.overrun?_eq_none_iff v k.limits).2 ⟨hadmissible.depth_le, hadmissible.width_le⟩
  rw [commit_of_instantiate (hbody ▸ hfilled) hwithin, if_pos rfl]

end Kernel

namespace Value

/-- Every value matches itself, if the bound on depth lets it, and binds exactly the names of its
variable sites, each to that site; filling the value in with them gives it back. So a step that
fires a projection whose pattern and body are both the value it is given comes to a fixed point. -/
theorem match?_self {v : Value} (hv : v.Ordered) :
    (∀ maxDepth, v.depth ≤ maxDepth → ∃ bindings, v.match? maxDepth v = some bindings ∧
      (∀ name u, Entries.get? bindings name = some u ↔
        name ∈ v.variableNames ∧ u = site name) ∧
      v.instantiate bindings = .ok v) ∧
    ∀ k : Kernel, ∀ setLimits projections,
      Catalog.ofList setLimits projections = .ok k.catalog → k.accept v = .ok () →
      ∃ o, k.outcome v = .ok o ∧
        ∀ p ∈ k.catalog.projections, p.pattern = v → p.body = v → o.fired? = some p.id →
          o = .stalled (.fixedPoint p.id) := by
  constructor
  · intro maxDepth hdepth
    exact exists_match?_self hv hdepth
  · intro k setLimits projections hcatalog haccept
    refine ⟨_, Kernel.outcome_of_accept haccept, fun p hp hpattern hbody hfired => ?_⟩
    obtain ⟨bindings, hfirst, hcommit⟩ := Kernel.firstMatch_of_fired? hcatalog hp hfired
    rw [hcommit]
    exact Kernel.commit_self hv haccept hpattern hbody hfirst.match?_eq

/-- A chain of pairs whose keys do not ascend, with one name twice. -/
def doubled : Value :=
  Linked.tagged Linked.dictTag
    [Linked.pair "b" (site "x"), Linked.pair "a" (.list [site "y", site "x"])]

theorem match?_self_doubled :
    let kernel : Kernel := ⟨⟨[⟨"same", doubled, doubled⟩]⟩, {}⟩
    doubled.Ordered ∧ doubled.depth ≤ 6 ∧
      Catalog.ofList {} kernel.catalog.projections = .ok kernel.catalog ∧
      kernel.accept doubled = .ok () ∧
      (∃ bindings, doubled.match? 6 doubled = some bindings ∧
        Entries.get? bindings "x" = some (site "x") ∧ doubled.instantiate bindings = .ok doubled) ∧
      kernel.outcome doubled = .ok (.stalled (.fixedPoint "same")) := by
  intro kernel
  have hordered : doubled.Ordered := by decide
  have hdepth : doubled.depth ≤ 6 := by decide
  have hcatalog : Catalog.ofList {} kernel.catalog.projections = .ok kernel.catalog := rfl
  have haccept : kernel.accept doubled = .ok () := rfl
  obtain ⟨hmatches, hsteps⟩ := match?_self hordered
  obtain ⟨bindings, hmatch, hbound, hfilled⟩ := hmatches 6 hdepth
  have hx : Entries.get? bindings "x" = some (site "x") := (hbound "x" _).2 ⟨by decide, rfl⟩
  obtain ⟨o, ho, hfixed⟩ := hsteps kernel {} _ hcatalog haccept
  obtain ⟨found, hfound, -⟩ := hmatches kernel.limits.maxDepth (by decide)
  have hfirst : kernel.FirstMatch doubled ⟨"same", doubled, doubled⟩ found :=
    ⟨[], [], rfl, fun q hq => absurd hq List.not_mem_nil, hfound⟩
  have hfired : o.fired? = some "same" := by
    rw [Kernel.outcome_of_accept haccept, Kernel.apply_of_firstMatch hfirst] at ho
    rw [← Except.ok.inj ho, Kernel.fired?_commit]
  have hstall := hfixed _ (List.mem_singleton_self _) rfl rfl hfired
  exact ⟨hordered, hdepth, hcatalog, haccept, ⟨bindings, hmatch, hx, hfilled⟩, hstall ▸ ho⟩

end Value

end TreeReduction
