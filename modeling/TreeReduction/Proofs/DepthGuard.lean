import TreeReduction.Proofs.Admission
import TreeReduction.Proofs.Matching

set_option autoImplicit false

/-!
# Matching without a bound on depth

`Matching.collect` says what a match comes to by going down the pattern alone, however deep that is:
which children are compared, in which order, and what they bind. Matching itself does the same under
a bound. Every comparison goes at least one level down in the value, so on values that keep the
bound it never shows (`Matching.extend_eq_collect`), and on others it can only make a match fail
(`Matching.collect_of_extend`).
-/

namespace TreeReduction

/-! ## Folds side by side -/

/-- Folds whose steps agree come to the same. -/
theorem foldlM_congr {α β : Type} {f g : β → α → Option β} (xs : List α) (b : β)
    (h : ∀ x ∈ xs, ∀ b, f b x = g b x) : xs.foldlM f b = xs.foldlM g b := by
  have hmap := foldlM_map_comm (f := f) (g := g) (m := id) (h := id) xs b fun x hx b => by
    rw [Option.map_id]
    exact (h x hx b).symm
  rw [List.map_id, Option.map_id] at hmap
  exact hmap.symm

/-- A fold succeeds with the same result if all steps that succeed in another one do. -/
theorem foldlM_mono {α β : Type} {f g : β → α → Option β} (xs : List α) (b c : β)
    (h : ∀ x ∈ xs, ∀ b c, f b x = some c → g b x = some c) (hfold : xs.foldlM f b = some c) :
    xs.foldlM g b = some c := by
  have hmap := foldlM_map_mono (m := id) (h := id) xs b c h hfold
  rwa [List.map_id] at hmap

theorem foldlM_attach {α β : Type} (f : β → α → Option β) (xs : List α) (b : β) :
    xs.attach.foldlM (fun b x => f b x.1) b = xs.foldlM f b := by
  conv_rhs => rw [← List.attach_map_subtype_val xs, List.foldlM_map]

theorem foldlM_attach_zip {α γ β : Type} (f : β → α × γ → Option β) (xs : List α) (ys : List γ)
    (b : β) : (xs.attach.zip ys).foldlM (fun b q => f b (q.1.1, q.2)) b = (xs.zip ys).foldlM f b := by
  conv_rhs => rw [← List.attach_map_subtype_val xs, List.zip_map_left, List.foldlM_map]
  rfl

namespace Value

/-! ## Depth of parts -/

/-- A part of a tree that is not all of it is less deep. -/
theorem Part.depth_lt {u v : Value} (h : Part u v) (hne : u ≠ v) : u.depth < v.depth := by
  have hbelow : ∀ {x w : Value}, (u ≠ x → u.depth < x.depth) → x.depth < w.depth →
      u.depth < w.depth := by
    intro x w ih hlt
    by_cases heq : u = x
    · exact heq ▸ hlt
    · exact Nat.lt_trans (ih heq) hlt
  induction h with
  | self => exact absurd rfl hne
  | @item x items hx hux ih =>
    refine hbelow ih ?_
    rw [depth, Nat.lt_succ_iff]
    exact (depthItems_le_iff items _).1 (Nat.le_refl _) x hx
  | @entry p entries hp hup ih =>
    refine hbelow ih ?_
    rw [depth, Nat.lt_succ_iff, depthEntries_eq]
    exact (depthItems_le_iff _ _).1 (Nat.le_refl _) p.2 (List.mem_map_of_mem hp)

theorem Child.depth_lt {u v : Value} (h : Child u v) : u.depth < v.depth := by
  refine h.part.depth_lt fun heq => ?_
  have hlt := h.sizeOf_lt
  rw [heq] at hlt
  exact Nat.lt_irrefl _ hlt

end Value

namespace Matching

/-! ## Matching by recursion on the pattern -/

/-- Every key on the left is a key on the right. -/
def hasKeys (patterns values : Entries Value) : Bool :=
  patterns.all fun p => Entries.contains values p.1

/-- Both sides are seen as sequences of one length, or as dictionaries of which the right one has
all keys of the left one. -/
def seenAlike (pattern value : Value) : Bool :=
  match pattern.view, value.view with
  | .sequence patterns, .sequence values => patterns.length == values.length
  | .dictionary patterns, .dictionary values => hasKeys patterns values
  | _, _ => false

/-- An ordinary map with at least one key stands beside a map that is spelled with all its keys. -/
def spelledAlike (pattern value : Value) : Bool :=
  match pattern, value with
  | .map patterns, .map values =>
    !patterns.isEmpty && pattern.shape == .map && hasKeys patterns values
  | _, _ => false

/-- What a pattern binds in a value, after what is bound already. A scalar has to be the identical
one and a variable site binds its name, unless that is bound. Otherwise the children that stand side
by side are gone through from the first to the last: as both sides are seen, where that sets every
child of the pattern beside one of the value, or else as both maps are spelled. -/
def collect (pattern value : Value) (bindings : Bindings) : Option Bindings :=
  if pattern.isScalar then
    if pattern.sameScalar value then some bindings else none
  else
    match pattern.variableName? with
    | some name => some (bindings.bindFirst name value)
    | none =>
      if seenAlike pattern value then
        match _seen : pattern.view, value.view with
        | .sequence patterns, .sequence values =>
          (patterns.attach.zip values).foldlM (fun b q => collect q.1.1 q.2 b) bindings
        | .dictionary patterns, .dictionary values =>
          patterns.attach.foldlM
            (fun b p => (Entries.get? values p.1.1).bind fun v => collect p.1.2 v b) bindings
        | _, _ => none
      else if spelledAlike pattern value then
        match pattern, value with
        | .map patterns, .map values =>
          patterns.attach.foldlM
            (fun b p => (Entries.get? values p.1.1).bind fun v => collect p.1.2 v b) bindings
        | _, _ => none
      else none
  termination_by sizeOf pattern
  decreasing_by
    · exact Value.sizeOf_lt_of_mem_sequence _seen q.1.2
    · exact Value.sizeOf_lt_of_mem_dictionary _seen p.2
    · exact Value.sizeOf_lt_of_mem_map p.2

/-! ## The children side by side -/

theorem hasKeys_eq_isSome (patterns values : Entries Value) :
    hasKeys patterns values = (entryPairs? patterns values).isSome := by
  unfold hasKeys entryPairs?
  induction patterns with
  | nil => rfl
  | cons p rest ih =>
    rw [List.all_cons, ih, List.mapM_cons, Entries.contains_eq_isSome]
    cases Entries.get? values p.1 with
    | none => rfl
    | some v => cases rest.mapM fun p => (Entries.get? values p.1).map (p.2, ·) <;> rfl

theorem seenAlike_eq_isSome (pattern value : Value) :
    seenAlike pattern value = (viewPairs? pattern value).isSome := by
  unfold seenAlike viewPairs?
  cases pattern.view with
  | leaf => rfl
  | sequence patterns =>
    cases value.view with
    | sequence values => by_cases h : patterns.length = values.length <;> simp [h]
    | _ => rfl
  | dictionary patterns =>
    cases value.view with
    | dictionary values => exact hasKeys_eq_isSome patterns values
    | _ => rfl

theorem spelledAlike_eq_isSome (pattern value : Value) :
    spelledAlike pattern value = (spelledPairs? pattern value).isSome := by
  unfold spelledAlike spelledPairs?
  cases pattern with
  | map patterns =>
    cases value with
    | map values =>
      simp only [hasKeys_eq_isSome]
      by_cases h : patterns.isEmpty ∨ (Value.map patterns).shape ≠ .map
      · rw [if_pos h]
        rcases h with h | h <;> simp [h]
      · rw [if_neg h]
        rw [not_or, not_not, Bool.not_eq_true] at h
        simp [h]
    | _ => rfl
  | _ => rfl

/-- Going through the entries of a pattern and looking up each key is going through the pairs. -/
theorem foldlM_entries {patterns values : Entries Value} {pairs : List (Value × Value)}
    (h : entryPairs? patterns values = some pairs) (f : Value → Value → Bindings → Option Bindings)
    (bindings : Bindings) :
    patterns.foldlM (fun b p => (Entries.get? values p.1).bind fun v => f p.2 v b) bindings =
      pairs.foldlM (fun b q => f q.1 q.2 b) bindings := by
  rw [entryPairs?_eq_some_iff] at h
  induction h generalizing bindings with
  | nil => rfl
  | @cons p q patterns pairs hpq _ ih =>
    obtain ⟨hp, hget⟩ := hpq
    rw [List.foldlM_cons, List.foldlM_cons, hget, Option.bind_some, hp]
    cases f q.1 q.2 bindings with
    | none => rfl
    | some b => exact ih b

/-! ## One level of the recursion -/

theorem collect_of_isScalar {pattern : Value} (h : pattern.isScalar = true) (value : Value)
    (bindings : Bindings) :
    collect pattern value bindings = if pattern.sameScalar value then some bindings else none := by
  rw [collect.eq_def, if_pos h]

theorem collect_of_name {pattern : Value} {name : String} (h : pattern.variableName? = some name)
    (value : Value) (bindings : Bindings) :
    collect pattern value bindings = some (bindings.bindFirst name value) := by
  have hscalar : pattern.isScalar ≠ true := by
    rw [Value.variableName?_eq_some_iff.1 h]
    simp [Value.site, Value.isScalar]
  rw [collect.eq_def, if_neg hscalar, h]

/-- The recursion goes down the same pairs of children that matching compares. -/
theorem collect_of_container {pattern : Value} (hscalar : pattern.isScalar = false)
    (hname : pattern.variableName? = none) (value : Value) (bindings : Bindings) :
    collect pattern value bindings =
      (pairs? pattern value).bind fun pairs =>
        pairs.foldlM (fun b q => collect q.1 q.2 b) bindings := by
  have hentries : ∀ {patterns values : Entries Value} {pairs : List (Value × Value)},
      entryPairs? patterns values = some pairs →
      patterns.attach.foldlM
          (fun b p => (Entries.get? values p.1.1).bind fun v => collect p.1.2 v b) bindings =
        pairs.foldlM (fun b q => collect q.1 q.2 b) bindings := by
    intro patterns values pairs h
    rw [← foldlM_entries h]
    exact foldlM_attach (fun b p => (Entries.get? values p.1).bind fun v => collect p.2 v b)
      patterns bindings
  rw [collect.eq_def, if_neg (by simp [hscalar]), hname]
  simp only [seenAlike_eq_isSome, spelledAlike_eq_isSome]
  unfold pairs?
  cases hview : viewPairs? pattern value with
  | some pairs =>
    simp only [Option.isSome_some, if_true, Option.bind_some]
    unfold viewPairs? at hview
    split
    · rename_i patterns values hp hv
      rw [hp, hv] at hview
      simp only at hview
      split at hview
      · obtain rfl := Option.some.inj hview
        exact foldlM_attach_zip (fun b q => collect q.1 q.2 b) patterns values bindings
      · simp at hview
    · rename_i patterns values hp hv
      rw [hp, hv] at hview
      exact hentries hview
    · rename_i hsequence hdictionary
      split at hview
      · rename_i hp hv
        exact absurd hv (hsequence _ _ hp)
      · rename_i hp hv
        exact absurd hv (hdictionary _ _ hp)
      · simp at hview
  | none =>
    simp only [Option.isSome_none, Bool.false_eq_true, if_false]
    cases hspelled : spelledPairs? pattern value with
    | none => rfl
    | some pairs =>
      simp only [Option.isSome_some, if_true, Option.bind_some]
      unfold spelledPairs? at hspelled
      split at hspelled
      · split at hspelled
        · simp at hspelled
        · exact hentries hspelled
      · simp at hspelled

/-! ## The bound -/

/-- Where there is a child to compare in a value that keeps a bound, there is room for it. -/
theorem room_of_pairs? {pattern value : Value} {pairs : List (Value × Value)}
    (h : pairs? pattern value = some pairs) {room : Nat} (hdepth : value.depth ≤ room) :
    pairs = [] ∨ 0 < room := by
  cases pairs with
  | nil => exact .inl rfl
  | cons q rest =>
    have hlt := (child_of_mem_pairs? h List.mem_cons_self).2.depth_lt
    exact .inr (Nat.zero_lt_of_lt (Nat.lt_of_lt_of_le hlt hdepth))

/-- Within a bound, matching finds nothing else than without one. -/
theorem collect_of_extend (room : Nat) {pattern value : Value} {bindings result : Bindings}
    (h : extend room pattern value bindings = some result) :
    collect pattern value bindings = some result := by
  induction room using Nat.strongRecOn generalizing pattern value bindings result with
  | ind room ih =>
    rcases extend_cases h with
      ⟨hscalar, hsame, rfl⟩ | ⟨name, hname, rfl⟩ | ⟨hscalar, hname, pairs, hpairs, hroom, hfold⟩
    · rw [collect_of_isScalar hscalar, if_pos hsame]
    · exact collect_of_name hname value bindings
    · rw [collect_of_container hscalar hname, hpairs, Option.bind_some]
      refine foldlM_mono pairs bindings result (fun q hq b c hbc => ?_) hfold
      have hpos : 0 < room := hroom.resolve_left (List.ne_nil_of_mem hq)
      exact ih (room - 1) (by omega) hbc

/-- On a value that is no deeper than the bound, the bound never shows, however deep the pattern
is. -/
theorem extend_eq_collect (room : Nat) (pattern : Value) {value : Value}
    (hdepth : value.depth ≤ room) (bindings : Bindings) :
    extend room pattern value bindings = collect pattern value bindings := by
  induction room using Nat.strongRecOn generalizing pattern value bindings with
  | ind room ih =>
    cases hscalar : pattern.isScalar with
    | true => rw [extend_of_isScalar hscalar, collect_of_isScalar hscalar]
    | false =>
      cases hname : pattern.variableName? with
      | some name => rw [extend_of_name hname, collect_of_name hname]
      | none =>
        rw [extend_of_container hscalar hname, collect_of_container hscalar hname]
        cases hpairs : pairs? pattern value with
        | none => rfl
        | some pairs =>
          rw [Option.bind_some, Option.bind_some, if_pos (room_of_pairs? hpairs hdepth)]
          refine foldlM_congr pairs bindings fun q hq b => ?_
          have hlt := (child_of_mem_pairs? hpairs hq).2.depth_lt
          exact ih (room - 1) (by omega) q.1 (by omega) b

end Matching

end TreeReduction
