import Mathlib.Logic.Hydra
import TreeReduction.Proofs.DepthGuard

set_option autoImplicit false

/-!
# Matching with a stack of frames

A match can be carried out without recursion: what is left to compare waits on a stack, and one loop
takes the top off it until nothing is left or something does not match (`Matching.loop`). The first
site of a name still binds it, since the children of a comparison are put on the stack from the last
to the first. `Matching.match?_eq_collect` says that the loop, matching and the recursion on the
pattern are one, as long as the value keeps the bound on depth.

The loop keeps what all frames together come to, one after the other from the top
(`Matching.remaining_step`). It ends because every round takes one pattern off the stack and puts
only smaller ones on it.
-/

namespace TreeReduction.Matching

/-! ## The loop -/

/-- A comparison that is still to be made. -/
structure Frame where
  pattern : Value
  value : Value
  depth : Nat

/-- Puts comparisons on a stack, the last first, so that the first comes to lie on top. -/
def push (depth : Nat) (pairs : List (Value × Value)) (frames : List Frame) : List Frame :=
  pairs.reverse.foldl (fun frames q => ⟨q.1, q.2, depth⟩ :: frames) frames

/-- Makes the comparison that was on top of a stack. Answers the stack and the bindings after it, or
nothing where it fails. -/
def step (maxDepth : Nat) (top : Frame) (frames : List Frame) (bindings : Bindings) :
    Option (List Frame × Bindings) :=
  if maxDepth < top.depth then none
  else if top.pattern.isScalar then
    if top.pattern.sameScalar top.value then some (frames, bindings) else none
  else
    match top.pattern.variableName? with
    | some name => some (frames, bindings.bindFirst name top.value)
    | none =>
      (pairs? top.pattern top.value).map fun pairs => (push (top.depth + 1) pairs frames, bindings)

theorem push_eq (depth : Nat) (pairs : List (Value × Value)) (frames : List Frame) :
    push depth pairs frames = pairs.map (fun q => ⟨q.1, q.2, depth⟩) ++ frames := by
  unfold push
  rw [List.foldl_reverse]
  induction pairs with
  | nil => rfl
  | cons q rest ih =>
    rw [List.foldr_cons, ih]
    rfl

/-- Everything that a round can do to the stack. -/
theorem step_cases {maxDepth : Nat} {top : Frame} {frames frames' : List Frame}
    {bindings bindings' : Bindings}
    (h : step maxDepth top frames bindings = some (frames', bindings')) :
    frames' = frames ∨
    ∃ pairs, pairs? top.pattern top.value = some pairs ∧
      frames' = push (top.depth + 1) pairs frames := by
  unfold step at h
  split at h
  · simp at h
  · split at h
    · split at h
      · obtain ⟨rfl, -⟩ := Prod.mk.inj (Option.some.inj h)
        exact .inl rfl
      · simp at h
    · split at h
      · obtain ⟨rfl, -⟩ := Prod.mk.inj (Option.some.inj h)
        exact .inl rfl
      · obtain ⟨pairs, hpairs, he⟩ := Option.map_eq_some_iff.1 h
        obtain ⟨rfl, -⟩ := Prod.mk.inj he
        exact .inr ⟨pairs, hpairs, rfl⟩

/-! ## The stack shrinks -/

/-- A pattern may be replaced by any number of smaller ones. -/
def Shrinks : Multiset Value → Multiset Value → Prop :=
  Relation.CutExpand fun u v => sizeOf u < sizeOf v

theorem wellFounded_shrinks : WellFounded Shrinks :=
  (measure (sizeOf : Value → Nat)).wf.cutExpand

/-- The patterns on a stack. -/
def patterns (frames : List Frame) : Multiset Value :=
  frames.map (·.pattern)

theorem patterns_cons (top : Frame) (frames : List Frame) :
    patterns (top :: frames) = patterns frames + {top.pattern} := by
  rw [add_comm]
  rfl

theorem patterns_push (depth : Nat) (pairs : List (Value × Value)) (frames : List Frame) :
    patterns (push depth pairs frames) =
      patterns frames + ((pairs.map (·.1) : List Value) : Multiset Value) := by
  rw [add_comm, patterns, push_eq, List.map_append, List.map_map, ← Multiset.coe_add]
  rfl

/-- A round takes one pattern off the stack and puts only smaller ones on it. -/
theorem shrinks_step {maxDepth : Nat} {top : Frame} {frames frames' : List Frame}
    {bindings bindings' : Bindings}
    (h : step maxDepth top frames bindings = some (frames', bindings')) :
    Shrinks (patterns frames') (patterns (top :: frames)) := by
  rw [patterns_cons]
  rcases step_cases h with rfl | ⟨pairs, hpairs, rfl⟩
  · exact ⟨0, top.pattern, by simp, (add_zero _).symm⟩
  · refine ⟨(pairs.map (·.1) : List Value), top.pattern, ?_, ?_⟩
    · intro u hu
      obtain ⟨q, hq, rfl⟩ := List.mem_map.1 (Multiset.mem_coe.1 hu)
      exact (child_of_mem_pairs? hpairs hq).1.sizeOf_lt
    · rw [patterns_push, add_right_comm]

/-- Makes the comparisons on a stack, from the top, until none is left or one fails. -/
def loop (maxDepth : Nat) : List Frame → Bindings → Option Bindings
  | [], bindings => some bindings
  | top :: frames, bindings =>
    match _h : step maxDepth top frames bindings with
    | none => none
    | some (frames, bindings) => loop maxDepth frames bindings
  termination_by frames => wellFounded_shrinks.wrap (patterns frames)
  decreasing_by exact shrinks_step _h

/-! ## What the frames come to -/

/-- What matching comes to for one frame, which lies `depth` deep. -/
def Frame.extend (maxDepth : Nat) (frame : Frame) (bindings : Bindings) : Option Bindings :=
  if maxDepth < frame.depth then none
  else Matching.extend (maxDepth - frame.depth) frame.pattern frame.value bindings

/-- What matching comes to for the frames of a stack, one after the other from the top. -/
def remaining (maxDepth : Nat) (frames : List Frame) (bindings : Bindings) : Option Bindings :=
  frames.foldlM (fun b frame => frame.extend maxDepth b) bindings

theorem remaining_cons (maxDepth : Nat) (top : Frame) (frames : List Frame) (bindings : Bindings) :
    remaining maxDepth (top :: frames) bindings =
      (top.extend maxDepth bindings).bind (remaining maxDepth frames) :=
  List.foldlM_cons

/-- Frames on top of others come to what they come to themselves and then the others. -/
theorem remaining_push (maxDepth depth : Nat) (pairs : List (Value × Value)) (frames : List Frame)
    (bindings : Bindings) :
    remaining maxDepth (push depth pairs frames) bindings =
      (pairs.foldlM (fun b q => Frame.extend maxDepth ⟨q.1, q.2, depth⟩ b) bindings).bind
        (remaining maxDepth frames) := by
  rw [remaining, push_eq, List.foldlM_append, List.foldlM_map]
  rfl

/-- The children of a frame match as frames of their own when there is room for them. -/
theorem foldlM_children (maxDepth : Nat) {depth : Nat} (hdepth : ¬maxDepth < depth)
    (pairs : List (Value × Value)) (bindings : Bindings) :
    pairs.foldlM (fun b q => Frame.extend maxDepth ⟨q.1, q.2, depth + 1⟩ b) bindings =
      if pairs = [] ∨ 0 < maxDepth - depth then
        pairs.foldlM (fun b q => Matching.extend (maxDepth - depth - 1) q.1 q.2 b) bindings
      else none := by
  by_cases hroom : 0 < maxDepth - depth
  · rw [if_pos (.inr hroom)]
    refine foldlM_congr pairs bindings fun q _ b => ?_
    rw [Frame.extend, if_neg (by simp only; omega), Nat.sub_sub]
  · cases pairs with
    | nil => rfl
    | cons q rest =>
      rw [if_neg (by simp [hroom]), List.foldlM_cons, Frame.extend, if_pos (by simp only; omega)]
      rfl

/-- A round keeps what all frames together come to. -/
theorem remaining_step (maxDepth : Nat) (top : Frame) (frames : List Frame) (bindings : Bindings) :
    ((step maxDepth top frames bindings).bind fun s => remaining maxDepth s.1 s.2) =
      remaining maxDepth (top :: frames) bindings := by
  rw [remaining_cons, Frame.extend, step]
  by_cases hdepth : maxDepth < top.depth
  · rw [if_pos hdepth, if_pos hdepth]
    rfl
  · rw [if_neg hdepth, if_neg hdepth]
    cases hscalar : top.pattern.isScalar with
    | true =>
      rw [if_pos rfl, extend_of_isScalar hscalar]
      cases top.pattern.sameScalar top.value <;> rfl
    | false =>
      rw [if_neg (by simp)]
      cases hname : top.pattern.variableName? with
      | some name =>
        rw [extend_of_name hname]
        rfl
      | none =>
        rw [extend_of_container hscalar hname]
        cases pairs? top.pattern top.value with
        | none => rfl
        | some pairs =>
          rw [Option.map_some, Option.bind_some, Option.bind_some, remaining_push,
            foldlM_children maxDepth hdepth]

/-- The loop comes to what the frames on the stack come to. -/
theorem loop_eq_remaining (maxDepth : Nat) (frames : List Frame) (bindings : Bindings) :
    loop maxDepth frames bindings = remaining maxDepth frames bindings := by
  fun_induction loop maxDepth frames bindings with
  | case1 bindings => rfl
  | case2 top frames bindings hstep =>
    rw [← remaining_step, hstep]
    rfl
  | case3 top frames bindings frames' bindings' hstep ih =>
    rw [ih, ← remaining_step, hstep]
    rfl

/-- The loop over a stack of frames matches like matching does. On a value that is no deeper than
the bound both come to what the recursion on the pattern comes to, however deep the pattern is; on a
deeper one they come to that or fail. -/
theorem match?_eq_collect (maxDepth : Nat) (pattern value : Value) :
    loop maxDepth [⟨pattern, value, 0⟩] [] = pattern.match? maxDepth value ∧
    (value.depth ≤ maxDepth → pattern.match? maxDepth value = collect pattern value []) ∧
    (pattern.match? maxDepth value = collect pattern value [] ∨
      pattern.match? maxDepth value = none) := by
  refine ⟨?_, fun hdepth => extend_eq_collect maxDepth pattern hdepth [], ?_⟩
  · rw [loop_eq_remaining, remaining_cons, Frame.extend, if_neg (Nat.not_lt_zero maxDepth),
      Nat.sub_zero]
    exact Option.bind_fun_some _
  · cases hmatch : pattern.match? maxDepth value with
    | none => exact .inr rfl
    | some bindings => exact .inl (collect_of_extend maxDepth hmatch).symm

/-- A list is seen in a chain and a chain then taken apart as it is spelled. The second site of a
name comes after the first, in another entry, and binds nothing. -/
theorem match?_eq_collect_mixed :
    let pattern : Value := .map [("a", .site "x"),
      ("b", .list [.site "x", .map [("head", .site "h"), ("tail", .site "t")]])]
    let value : Value := .map [("a", .int 1), ("b", Linked.ofItems [.int 2, Linked.ofItems [.int 3]])]
    let result : Bindings := [("h", .int 3), ("t", .null), ("x", .int 1)]
    value.depth ≤ 4 ∧ collect pattern value [] = some result ∧
      loop 4 [⟨pattern, value, 0⟩] [] = some result := by
  intro pattern value result
  have hdepth : value.depth ≤ 4 := by decide
  have hmatch : pattern.match? 4 value = some result := rfl
  obtain ⟨hloop, hcollect, -⟩ := match?_eq_collect 4 pattern value
  exact ⟨hdepth, (hcollect hdepth).symm.trans hmatch, hloop.trans hmatch⟩

end TreeReduction.Matching
