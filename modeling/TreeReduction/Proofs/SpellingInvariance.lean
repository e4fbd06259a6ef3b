import TreeReduction.Proofs.Matching
import TreeReduction.Proofs.Respelling

set_option autoImplicit false

/-!
# Matching does not depend on the spelling

The linked spelling of a pattern matches what the pattern matches, and gives the same bindings; the
linked spellings of pattern and value match exactly when these do, and bind the linked spellings.
A pattern that matches a value also matches the linked spelling of that value.

All three compare two matches that descend side by side: the children on one side are respellings of
the children on the other, because the views are. The keys as they are spelled come in only when the
views disagree. Then they cannot help a linked pattern, which is no ordinary map, nor two trees
without tags, whose views are what is spelled. They can help an ordinary pattern against a chain,
which is why the last statement goes one way only.
-/

namespace TreeReduction

open Value (toLinked)

/-! ## Bindings respelled -/

theorem Bindings.bindFirst_mapValues (g : Value → Value) (bindings : Bindings) (name : String)
    (v : Value) :
    Bindings.bindFirst (Entries.mapValues g bindings) name (g v) =
      Entries.mapValues g (bindings.bindFirst name v) := by
  unfold bindFirst
  rw [Entries.contains_mapValues]
  split
  · rfl
  · exact Entries.insert_mapValues g bindings name v

namespace Matching

/-! ## The children side by side -/

theorem entryPairs?_mapValues (f g : Value → Value) (patterns values : List (String × Value)) :
    entryPairs? (Entries.mapValues f patterns) (Entries.mapValues g values) =
      (entryPairs? patterns values).map (List.map (Prod.map f g)) := by
  unfold entryPairs?
  induction patterns with
  | nil => rfl
  | cons p rest ih =>
    rw [Entries.mapValues_cons, List.mapM_cons, List.mapM_cons, ih, Entries.get?_mapValues]
    cases Entries.get? values p.1 with
    | none => rfl
    | some w => cases rest.mapM fun q => (Entries.get? values q.1).map (q.2, ·) <;> rfl

/-- Views that show respellings set respellings side by side. -/
theorem viewPairs?_of_view_eq_map {f g : Value → Value} {pattern pattern' value value' : Value}
    (hpattern : pattern'.view = pattern.view.map f) (hvalue : value'.view = value.view.map g) :
    viewPairs? pattern' value' = (viewPairs? pattern value).map (List.map (Prod.map f g)) := by
  unfold viewPairs?
  rw [hpattern, hvalue]
  cases pattern.view with
  | leaf => rfl
  | sequence patterns =>
    cases value.view with
    | sequence values =>
      simp only [View.map, List.length_map]
      split
      · simp [List.zip_map]
      · rfl
    | _ => rfl
  | dictionary patterns =>
    cases value.view with
    | dictionary values => exact entryPairs?_mapValues f g patterns values
    | _ => rfl

/-- What is no ordinary map is only compared by its view. -/
theorem pairs?_of_shape_ne_map {pattern : Value} (h : pattern.shape ≠ .map) (value : Value) :
    pairs? pattern value = viewPairs? pattern value := by
  unfold pairs?
  split
  · rename_i pairs hview
    exact hview.symm
  · rename_i hview
    rw [hview]
    unfold spelledPairs?
    split
    · rw [if_pos (.inr h)]
    · rfl

/-! ## Spellings that no view sees -/

/-- A way to respell trees that keeps scalars and is not seen by the views of trees without tags. -/
structure Transparent (g : Value → Value) : Prop where
  scalar : ∀ v : Value, v.isScalar = true → g v = v
  isScalar : ∀ v : Value, (g v).isScalar = v.isScalar
  view : ∀ v : Value, v.Untagged → v.Ordered → (g v).view = v.view.map g

theorem transparent_id : Transparent id :=
  ⟨fun _ _ => rfl, fun _ => rfl, fun v _ _ => (View.map_id v.view).symm⟩

theorem transparent_toLinked : Transparent toLinked :=
  ⟨fun _ => Value.toLinked_of_isScalar, Value.isScalar_toLinked, fun _ => Value.view_toLinked⟩

theorem Transparent.sameScalar {g : Value → Value} (hg : Transparent g) (u v : Value) :
    u.sameScalar (g v) = u.sameScalar v := by
  rw [Bool.eq_iff_iff, Value.sameScalar_iff, Value.sameScalar_iff]
  refine and_congr_right fun hu => ?_
  constructor
  · rintro rfl
    rw [hg.isScalar] at hu
    exact hg.scalar v hu
  · rintro rfl
    exact (hg.scalar u hu).symm

/-! ## Matches side by side -/

section SideBySide

variable {g : Value → Value} (hg : Transparent g)

include hg in
/-- A linked pattern matches a respelled value like the pattern matches the value. -/
theorem extend_toLinked (room : Nat) {pattern value : Value} (hp : pattern.Untagged)
    (hv : value.Untagged) (hpo : pattern.Ordered) (hvo : value.Ordered) (bindings : Bindings) :
    extend room pattern.toLinked (g value) (Entries.mapValues g bindings) =
      (extend room pattern value bindings).map (Entries.mapValues g) := by
  induction room using Nat.strongRecOn generalizing pattern value bindings with
  | ind room ih =>
    cases hscalar : pattern.isScalar with
    | true =>
      rw [Value.toLinked_of_isScalar hscalar, extend_of_isScalar hscalar,
        extend_of_isScalar hscalar, hg.sameScalar]
      split <;> rfl
    | false =>
      cases hname : pattern.variableName? with
      | some name =>
        have hname' := (Value.variableName?_toLinked pattern).trans hname
        rw [extend_of_name hname, extend_of_name hname', Bindings.bindFirst_mapValues]
        rfl
      | none =>
        have hscalar' := (Value.isScalar_toLinked pattern).trans hscalar
        have hname' := (Value.variableName?_toLinked pattern).trans hname
        have hshape := Value.shape_toLinked_ne_map hname hp hpo
        have hpairs : pairs? pattern.toLinked (g value) =
            (pairs? pattern value).map (List.map (Prod.map toLinked g)) := by
          rw [pairs?_of_shape_ne_map hshape, pairs?_of_untagged hp hv]
          exact viewPairs?_of_view_eq_map (Value.view_toLinked hp hpo) (hg.view value hv hvo)
        rw [extend_of_container hscalar hname, extend_of_container hscalar' hname', hpairs]
        cases hcase : pairs? pattern value with
        | none => rfl
        | some pairs =>
          simp only [Option.map_some, Option.bind_some, List.map_eq_nil_iff]
          split
          · rename_i hroom
            refine foldlM_map_comm pairs bindings fun q hq b => ?_
            obtain ⟨hq₁, hq₂⟩ := part_of_mem_pairs? hcase hq
            have hpos : 0 < room := hroom.resolve_left (List.ne_nil_of_mem hq)
            exact ih (room - 1) (by omega) (hp.part hq₁) (hv.part hq₂) (hpo.part hq₁)
              (hvo.part hq₂) b
          · rfl

include hg in
/-- A pattern that matches a value matches the respelled value. -/
theorem extend_of_transparent (room : Nat) {pattern value : Value} (hp : pattern.Untagged)
    (hv : value.Untagged) (hpo : pattern.Ordered) (hvo : value.Ordered)
    {bindings result : Bindings} (h : extend room pattern value bindings = some result) :
    extend room pattern (g value) (Entries.mapValues g bindings) =
      some (Entries.mapValues g result) := by
  induction room using Nat.strongRecOn generalizing pattern value bindings result with
  | ind room ih =>
    rcases extend_cases h with
      ⟨hscalar, hsame, rfl⟩ | ⟨name, hname, rfl⟩ | ⟨hscalar, hname, pairs, hpairs, hroom, hfold⟩
    · rw [extend_of_isScalar hscalar, hg.sameScalar, if_pos hsame]
    · rw [extend_of_name hname, Bindings.bindFirst_mapValues]
    · have hview : viewPairs? pattern (g value) = some (pairs.map (Prod.map id g)) := by
        rw [viewPairs?_of_view_eq_map (View.map_id pattern.view).symm (hg.view value hv hvo),
          ← pairs?_of_untagged hp hv, hpairs]
        rfl
      rw [extend_of_container hscalar hname, pairs?_of_viewPairs? hview, Option.bind_some,
        if_pos (hroom.imp_left List.map_eq_nil_iff.2)]
      refine foldlM_map_mono pairs bindings result (fun q hq b c hbc => ?_) hfold
      obtain ⟨hq₁, hq₂⟩ := part_of_mem_pairs? hpairs hq
      have hpos : 0 < room := hroom.resolve_left (List.ne_nil_of_mem hq)
      exact ih (room - 1) (by omega) (hp.part hq₁) (hv.part hq₂) (hpo.part hq₁) (hvo.part hq₂) hbc

end SideBySide

end Matching

namespace Value

/-- Trees without tags and with finite numbers have linked spellings, and matching does not depend
on which spelling of the pattern it is given, nor, where it succeeds, on that of the value: what is
bound is respelled along with the value. -/
theorem match?_toLinked {pattern value : Value} (hp : pattern.Untagged) (hv : value.Untagged)
    (hpo : pattern.Ordered) (hvo : value.Ordered) (hpf : pattern.FiniteFloats)
    (hvf : value.FiniteFloats) (maxDepth : Nat) :
    (∃ depth width, ∀ limits : Limits, depth ≤ limits.maxDepth → width ≤ limits.maxWidth →
      limits.allowFloats = true →
        pattern.toLinkedWithin limits = .ok pattern.toLinked ∧
          value.toLinkedWithin limits = .ok value.toLinked) ∧
    pattern.toLinked.match? maxDepth value = pattern.match? maxDepth value ∧
    pattern.toLinked.match? maxDepth value.toLinked =
      (pattern.match? maxDepth value).map (Entries.mapValues toLinked) ∧
    ∀ bindings, pattern.match? maxDepth value = some bindings →
      pattern.match? maxDepth value.toLinked = some (Entries.mapValues toLinked bindings) := by
  refine ⟨?_, ?_, ?_, ?_⟩
  · refine ⟨max pattern.toLinked.depth value.toLinked.depth,
      max pattern.toLinked.width value.toLinked.width, fun limits hdepth hwidth hfloats => ?_⟩
    rw [Nat.max_le] at hdepth hwidth
    exact ⟨toLinkedWithin_of_le hpf hdepth.1 hwidth.1 hfloats,
      toLinkedWithin_of_le hvf hdepth.2 hwidth.2 hfloats⟩
  · have hid : Entries.mapValues (id : Value → Value) = id := funext Entries.mapValues_id
    have h := Matching.extend_toLinked Matching.transparent_id maxDepth hp hv hpo hvo []
    rw [hid, Option.map_id] at h
    exact h
  · exact Matching.extend_toLinked Matching.transparent_toLinked maxDepth hp hv hpo hvo []
  · exact fun bindings h =>
      Matching.extend_of_transparent Matching.transparent_toLinked maxDepth hp hv hpo hvo h

/-- A map with a list under one of its keys, matched in its own and in the linked spelling. -/
theorem match?_toLinked_nested :
    let pattern : Value := .map [("k", .list [site "x", .list []])]
    let value : Value := .map [("k", .list [.map [("z", .null)], .list []]), ("more", .int 1)]
    pattern.toLinked.match? 4 value.toLinked = some [("x", (Value.map [("z", .null)]).toLinked)] ∧
      pattern.match? 4 value.toLinked = some [("x", (Value.map [("z", .null)]).toLinked)] := by
  intro pattern value
  have hmatch : pattern.match? 4 value = some [("x", .map [("z", .null)])] := rfl
  obtain ⟨-, -, hboth, hone⟩ := @match?_toLinked pattern value
    (by decide) (by decide) (by decide) (by decide) (by decide) (by decide) 4
  rw [hmatch] at hboth
  exact ⟨hboth, hone _ hmatch⟩

end Value

end TreeReduction
