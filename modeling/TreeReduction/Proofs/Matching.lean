import Mathlib.Data.List.Forall2
import TreeReduction.Matching
import TreeReduction.Proofs.Views

set_option autoImplicit false

/-!
# What matching compares and binds

A match never invents anything: the children that `Matching.pairs?` sets side by side are parts of
the pattern and of the value, so every bound value is a part of the value that was matched. Trees
without tags are compared as they are spelled, since their views show nothing else.

`Matching.extend_cases` says everything that a successful match can have done at its root.
-/

namespace TreeReduction

open Value (Child Part)

/-! ## Folds that may fail -/

/-- What every step of a fold keeps, the whole fold keeps. -/
theorem foldlM_invariant {α β : Type} {f : β → α → Option β} {I : β → Prop} :
    ∀ (xs : List α) (b c : β), (∀ x ∈ xs, ∀ b c, I b → f b x = some c → I c) → I b →
      xs.foldlM f b = some c → I c := by
  intro xs
  induction xs with
  | nil =>
    intro b c _ hb h
    simp only [List.foldlM_nil, Option.pure_def, Option.some.injEq] at h
    exact h ▸ hb
  | cons x xs ih =>
    intro b c hstep hb h
    rw [List.foldlM_cons] at h
    obtain ⟨d, hd, h⟩ := Option.bind_eq_some_iff.1 h
    have hd' : I d := hstep x (by simp) b d hb hd
    exact ih d c (fun y hy => hstep y (by simp [hy])) hd' h

/-- A fold can be made when every step can, as long as the steps before it keep an invariant. -/
theorem exists_foldlM_eq_some {α β : Type} {f : β → α → Option β} {I : β → Prop} :
    ∀ (xs : List α) (b : β), (∀ x ∈ xs, ∀ b, I b → ∃ c, f b x = some c ∧ I c) → I b →
      ∃ c, xs.foldlM f b = some c ∧ I c := by
  intro xs
  induction xs with
  | nil => exact fun b _ hb => ⟨b, rfl, hb⟩
  | cons x xs ih =>
    intro b hstep hb
    obtain ⟨c, hc, hc'⟩ := hstep x (by simp) b hb
    rw [List.foldlM_cons, hc]
    exact ih c (fun y hy => hstep y (by simp [hy])) hc'

/-- Two folds whose steps give changed results for arguments that are changed alike. -/
theorem foldlM_map_comm {α β : Type} {f g : β → α → Option β} {m : α → α} {h : β → β} :
    ∀ (xs : List α) (b : β), (∀ x ∈ xs, ∀ b, g (h b) (m x) = (f b x).map h) →
      (xs.map m).foldlM g (h b) = (xs.foldlM f b).map h := by
  intro xs
  induction xs with
  | nil => intro b _; rfl
  | cons x xs ih =>
    intro b hstep
    rw [List.map_cons, List.foldlM_cons, List.foldlM_cons, hstep x (by simp) b]
    cases f b x with
    | none => rfl
    | some c => exact ih c fun y hy => hstep y (by simp [hy])

/-- The same where only the steps of the first fold that succeed are known of. -/
theorem foldlM_map_mono {α β : Type} {f g : β → α → Option β} {m : α → α} {h : β → β} :
    ∀ (xs : List α) (b c : β), (∀ x ∈ xs, ∀ b c, f b x = some c → g (h b) (m x) = some (h c)) →
      xs.foldlM f b = some c → (xs.map m).foldlM g (h b) = some (h c) := by
  intro xs
  induction xs with
  | nil =>
    intro b c _ hfold
    simp only [List.foldlM_nil, Option.pure_def, Option.some.injEq] at hfold
    rw [hfold]
    rfl
  | cons x xs ih =>
    intro b c hstep hfold
    rw [List.foldlM_cons] at hfold
    obtain ⟨d, hd, hfold⟩ := Option.bind_eq_some_iff.1 hfold
    rw [List.map_cons, List.foldlM_cons, hstep x (by simp) b d hd]
    exact ih d c (fun y hy => hstep y (by simp [hy])) hfold

namespace Bindings

theorem mem_bindFirst {bindings : Bindings} {name : String} {v : Value} {q : String × Value}
    (h : q ∈ bindings.bindFirst name v) : q ∈ bindings ∨ q = (name, v) := by
  unfold bindFirst at h
  split at h
  · exact .inl h
  · exact (Entries.mem_insert h).symm

theorem get?_bindFirst_of_ne (bindings : Bindings) {name other : String} (v : Value)
    (h : name ≠ other) :
    Entries.get? (bindings.bindFirst name v) other = Entries.get? bindings other := by
  unfold bindFirst
  split
  · rfl
  · rw [Entries.get?_insert, if_neg h]

theorem get?_bindFirst_self {bindings : Bindings} {name : String} (v : Value)
    (h : Entries.get? bindings name = none) :
    Entries.get? (bindings.bindFirst name v) name = some v := by
  rw [bindFirst, Entries.contains_eq_isSome, h, Option.isSome_none]
  simp [Entries.get?_insert]

/-- Binding a name adds it to what is bound, if it is not there. -/
theorem mem_keys_bindFirst_iff {bindings : Bindings} {name other : String} {v : Value} :
    other ∈ Entries.keys (bindings.bindFirst name v) ↔
      other = name ∨ other ∈ Entries.keys bindings := by
  unfold bindFirst
  split
  · rename_i hbound
    rw [Entries.contains_eq_isSome, Entries.isSome_get?_iff] at hbound
    exact (or_iff_right_of_imp fun h => h ▸ hbound).symm
  · exact Entries.mem_keys_insert_iff bindings name other v

end Bindings

namespace Matching

/-! ## The children that are compared -/

theorem mem_entryPairs? {patterns values : List (String × Value)} {pairs : List (Value × Value)}
    (h : entryPairs? patterns values = some pairs) {q : Value × Value} (hq : q ∈ pairs) :
    ∃ p ∈ patterns, p.2 = q.1 ∧ Entries.get? values p.1 = some q.2 := by
  obtain ⟨p, hp, hpq⟩ := Linked.exists_of_mem_mapM h hq
  obtain ⟨w, hw, rfl⟩ := Option.map_eq_some_iff.1 hpq
  exact ⟨p, hp, rfl, hw⟩

theorem entryPairs?_eq_some_iff {patterns values : List (String × Value)}
    {pairs : List (Value × Value)} :
    entryPairs? patterns values = some pairs ↔
      List.Forall₂ (fun p q => p.2 = q.1 ∧ Entries.get? values p.1 = some q.2) patterns pairs := by
  unfold entryPairs?
  induction patterns generalizing pairs with
  | nil => simp [eq_comm]
  | cons p rest ih =>
    rw [List.mapM_cons, List.forall₂_cons_left_iff]
    cases Entries.get? values p.1 with
    | none => simp
    | some w =>
      cases hrest : rest.mapM fun q => (Entries.get? values q.1).map (q.2, ·) with
      | none => simp [← ih, hrest]
      | some qs => simp [← ih, hrest, eq_comm (a := pairs), and_assoc]

/-- Entries are paired where each key of the pattern is there with something suitable. -/
theorem exists_entryPairs?_iff (R : Value → Value → Prop)
    {patterns values : List (String × Value)} :
    (∃ pairs, entryPairs? patterns values = some pairs ∧ ∀ q ∈ pairs, R q.1 q.2) ↔
      ∀ p ∈ patterns, ∃ w, Entries.get? values p.1 = some w ∧ R p.2 w := by
  simp only [entryPairs?_eq_some_iff]
  induction patterns with
  | nil => simp
  | cons p rest ih =>
    rw [List.forall_mem_cons, ← ih]
    simp only [List.forall₂_cons_left_iff]
    constructor
    · rintro ⟨pairs, ⟨⟨u, w⟩, qs, ⟨rfl, hw⟩, hqs, rfl⟩, hR⟩
      rw [List.forall_mem_cons] at hR
      exact ⟨⟨w, hw, hR.1⟩, qs, hqs, hR.2⟩
    · rintro ⟨⟨w, hw, hR⟩, qs, hqs, hall⟩
      refine ⟨(p.2, w) :: qs, ⟨(p.2, w), qs, ⟨rfl, hw⟩, hqs, rfl⟩, ?_⟩
      rw [List.forall_mem_cons]
      exact ⟨hR, hall⟩

/-- The patterns of the pairs are the values of the pattern, in order. -/
theorem map_fst_of_entryPairs? {patterns values : List (String × Value)}
    {pairs : List (Value × Value)} (h : entryPairs? patterns values = some pairs) :
    pairs.map (·.1) = patterns.map (·.2) := by
  rw [entryPairs?_eq_some_iff] at h
  rw [← List.forall₂_eq_eq_eq, List.forall₂_map_left_iff, List.forall₂_map_right_iff]
  exact (h.imp fun p q hpq => hpq.1.symm).flip

theorem child_of_mem_viewPairs? {pattern value : Value} {pairs : List (Value × Value)}
    (h : viewPairs? pattern value = some pairs) {q : Value × Value} (hq : q ∈ pairs) :
    Child q.1 pattern ∧ Child q.2 value := by
  unfold viewPairs? at h
  split at h
  · rename_i patterns values hpattern hvalue
    split at h
    · simp only [Option.some.injEq] at h
      subst h
      obtain ⟨hq₁, hq₂⟩ := List.of_mem_zip (show (q.1, q.2) ∈ patterns.zip values from hq)
      exact ⟨.item hpattern hq₁, .item hvalue hq₂⟩
    · simp at h
  · rename_i patterns values hpattern hvalue
    obtain ⟨p, hp, hpq, hget⟩ := mem_entryPairs? h hq
    exact ⟨hpq ▸ .entry hpattern hp, .entry hvalue (Entries.mem_of_get? hget)⟩
  · simp at h

theorem child_of_mem_spelledPairs? {pattern value : Value} {pairs : List (Value × Value)}
    (h : spelledPairs? pattern value = some pairs) {q : Value × Value} (hq : q ∈ pairs) :
    Child q.1 pattern ∧ Child q.2 value := by
  unfold spelledPairs? at h
  split at h
  · split at h
    · simp at h
    · obtain ⟨p, hp, hpq, hget⟩ := mem_entryPairs? h hq
      exact ⟨hpq ▸ .spelled hp, .spelled (Entries.mem_of_get? hget)⟩
  · simp at h

/-- Both children of a comparison stand directly below what is compared. -/
theorem child_of_mem_pairs? {pattern value : Value} {pairs : List (Value × Value)}
    (h : pairs? pattern value = some pairs) {q : Value × Value} (hq : q ∈ pairs) :
    Child q.1 pattern ∧ Child q.2 value := by
  unfold pairs? at h
  split at h
  · rename_i ps hview
    simp only [Option.some.injEq] at h
    subst h
    exact child_of_mem_viewPairs? hview hq
  · exact child_of_mem_spelledPairs? h hq

/-- Both children of a comparison are parts of what is compared. -/
theorem part_of_mem_pairs? {pattern value : Value} {pairs : List (Value × Value)}
    (h : pairs? pattern value = some pairs) {q : Value × Value} (hq : q ∈ pairs) :
    Part q.1 pattern ∧ Part q.2 value :=
  (child_of_mem_pairs? h hq).imp Value.Child.part Value.Child.part

theorem pairs?_of_viewPairs? {pattern value : Value} {pairs : List (Value × Value)}
    (h : viewPairs? pattern value = some pairs) : pairs? pattern value = some pairs := by
  unfold pairs?
  rw [h]

/-- Without tags, a map is seen as it is spelled, so its spelling cannot help where the view
fails. -/
theorem pairs?_of_untagged {pattern value : Value} (hp : pattern.Untagged) (hv : value.Untagged) :
    pairs? pattern value = viewPairs? pattern value := by
  unfold pairs?
  split
  · rename_i pairs h
    exact h.symm
  · rename_i h
    rw [h]
    unfold spelledPairs?
    split
    · rename_i patterns values
      rw [Value.Untagged, Value.lacks_map_iff] at hp hv
      unfold viewPairs? at h
      rw [Value.view_map_of_untagged hp.1, Value.view_map_of_untagged hv.1] at h
      split
      · rfl
      · exact h
    · rfl

/-- A list without tags is compared with a list of its length, item by item. -/
theorem pairs?_list_iff {patterns : List Value} {value : Value} {pairs : List (Value × Value)}
    (hp : (Value.list patterns).Untagged) (hv : value.Untagged) :
    pairs? (.list patterns) value = some pairs ↔
      ∃ values, value = .list values ∧ patterns.length = values.length ∧
        pairs = patterns.zip values := by
  rw [pairs?_of_untagged hp hv, viewPairs?, Value.view_list]
  cases value with
  | list values =>
    simp only [Value.view_list, Value.list.injEq, exists_eq_left']
    split
    · rename_i hlength
      simp [hlength, eq_comm]
    · rename_i hlength
      simp [hlength]
  | map values =>
    rw [Value.Untagged, Value.lacks_map_iff] at hv
    simp [Value.view_map_of_untagged hv.1]
  | _ => simp [Value.view]

/-- A map without tags is compared with a map, entry by entry. -/
theorem pairs?_map_iff {patterns : List (String × Value)} {value : Value}
    {pairs : List (Value × Value)} (hp : (Value.map patterns).Untagged) (hv : value.Untagged) :
    pairs? (.map patterns) value = some pairs ↔
      ∃ values, value = .map values ∧ entryPairs? patterns values = some pairs := by
  rw [pairs?_of_untagged hp hv, viewPairs?]
  rw [Value.Untagged, Value.lacks_map_iff] at hp
  rw [Value.view_map_of_untagged hp.1]
  cases value with
  | map values =>
    rw [Value.Untagged, Value.lacks_map_iff] at hv
    simp [Value.view_map_of_untagged hv.1]
  | list values => simp [Value.view_list]
  | _ => simp [Value.view]

/-! ## One level of a match -/

theorem extend_of_isScalar {pattern : Value} (h : pattern.isScalar = true) (room : Nat)
    (value : Value) (bindings : Bindings) :
    extend room pattern value bindings =
      if pattern.sameScalar value then some bindings else none := by
  rw [extend.eq_def, if_pos h]

theorem extend_of_name {pattern : Value} {name : String} (h : pattern.variableName? = some name)
    (room : Nat) (value : Value) (bindings : Bindings) :
    extend room pattern value bindings = some (bindings.bindFirst name value) := by
  obtain rfl := Value.variableName?_eq_some_iff.1 h
  rw [extend.eq_def, if_neg (by simp [Value.site, Value.isScalar]), h]

/-- Two containers match when they agree on the children to compare and these match one after the
other, for which there has to be room if there are any. -/
theorem extend_of_container {pattern : Value} (hscalar : pattern.isScalar = false)
    (hname : pattern.variableName? = none) (room : Nat) (value : Value) (bindings : Bindings) :
    extend room pattern value bindings =
      (pairs? pattern value).bind fun pairs =>
        if pairs = [] ∨ 0 < room then
          pairs.foldlM (fun b q => extend (room - 1) q.1 q.2 b) bindings
        else none := by
  rw [extend.eq_def, if_neg (by simp [hscalar]), hname]
  simp only
  cases pairs? pattern value with
  | none => rfl
  | some pairs =>
    cases pairs with
    | nil => simp
    | cons q rest => cases room <;> simp

/-- What a successful match did at its root. -/
theorem extend_cases {room : Nat} {pattern value : Value} {bindings result : Bindings}
    (h : extend room pattern value bindings = some result) :
    (pattern.isScalar = true ∧ pattern.sameScalar value = true ∧ result = bindings) ∨
    (∃ name, pattern.variableName? = some name ∧ result = bindings.bindFirst name value) ∨
    (pattern.isScalar = false ∧ pattern.variableName? = none ∧
      ∃ pairs, pairs? pattern value = some pairs ∧ (pairs = [] ∨ 0 < room) ∧
        pairs.foldlM (fun b q => extend (room - 1) q.1 q.2 b) bindings = some result) := by
  cases hscalar : pattern.isScalar with
  | true =>
    rw [extend_of_isScalar hscalar] at h
    split at h
    · rename_i hsame
      exact .inl ⟨rfl, hsame, (Option.some.inj h).symm⟩
    · simp at h
  | false =>
    cases hname : pattern.variableName? with
    | some name =>
      rw [extend_of_name hname] at h
      exact .inr (.inl ⟨name, rfl, (Option.some.inj h).symm⟩)
    | none =>
      rw [extend_of_container hscalar hname] at h
      obtain ⟨pairs, hpairs, h⟩ := Option.bind_eq_some_iff.1 h
      split at h
      · rename_i hroom
        exact .inr (.inr ⟨rfl, rfl, pairs, hpairs, hroom, h⟩)
      · simp at h

/-! ## What is bound -/

/-- A match adds only bindings to parts of the value. -/
theorem part_of_mem_extend (room : Nat) {pattern value : Value} {bindings result : Bindings}
    (h : extend room pattern value bindings = some result) :
    ∀ q ∈ result, q ∈ bindings ∨ Part q.2 value := by
  -- the induction is on the room, since the children of a comparison are no children of the pattern
  -- when either side is seen through its spelling
  induction room generalizing pattern value bindings result with
  | zero =>
    intro q hq
    rcases extend_cases h with ⟨-, -, rfl⟩ | ⟨name, -, rfl⟩ | ⟨-, -, pairs, -, hroom, hfold⟩
    · exact .inl hq
    · exact (Bindings.mem_bindFirst hq).imp_right fun hnew => by rw [hnew]; exact .self value
    · obtain rfl : pairs = [] := by simpa using hroom
      simp only [List.foldlM_nil, Option.pure_def, Option.some.injEq] at hfold
      exact .inl (hfold ▸ hq)
  | succ room ih =>
    rcases extend_cases h with ⟨-, -, rfl⟩ | ⟨name, -, rfl⟩ | ⟨-, -, pairs, hpairs, -, hfold⟩
    · exact fun q hq => .inl hq
    · intro q hq
      exact (Bindings.mem_bindFirst hq).imp_right fun hnew => by rw [hnew]; exact .self value
    · refine foldlM_invariant (I := fun b => ∀ q ∈ b, q ∈ bindings ∨ Part q.2 value) pairs bindings
        result (fun pair hpair b c hb hc q hq => ?_) (fun q hq => .inl hq) hfold
      rcases ih hc q hq with hold | hpart
      · exact hb q hold
      · exact .inr (hpart.trans (part_of_mem_pairs? hpairs hpair).2)

end Matching

namespace Value

/-- Every value that a match binds is a part of the value that was matched. -/
theorem part_of_mem_match? {maxDepth : Nat} {pattern value : Value} {bindings : Bindings}
    (h : pattern.match? maxDepth value = some bindings) {q : String × Value} (hq : q ∈ bindings) :
    Part q.2 value := by
  rcases Matching.part_of_mem_extend maxDepth h q hq with hnil | hpart
  · simp at hnil
  · exact hpart

end Value

end TreeReduction
