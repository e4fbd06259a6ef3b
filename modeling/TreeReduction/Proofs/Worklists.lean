import Mathlib.Logic.Hydra

set_option autoImplicit false

/-!
# Work on a stack

A tree can be gone through without recursion: what is still to be done waits on a stack, and one
loop takes the top off it until nothing is left or something fails. Doing an item changes a state
and puts any number of other items in its place. These are lighter than it was, and so the loop
ends.

`Worklist.run_append` is the law of such a loop: the items on top are done before what lies below
them is looked at. So it is enough to know what the loop makes of a single item, and of the items
that this gives one after the other (`Worklist.run_single`, `Worklist.run_eq_foldlM`).
-/

namespace TreeReduction

/-- Work that is done item by item. -/
structure Worklist (ι σ ε : Type) where
  /-- Does an item. Answers the items that it gives and the state after it. -/
  step : ι → σ → Except ε (List ι × σ)
  weight : ι → Nat
  weight_lt : ∀ {item : ι} {s s' : σ} {more : List ι}, step item s = .ok (more, s') →
    ∀ next ∈ more, weight next < weight item

namespace Worklist

variable {ι σ ε : Type}

/-! ## The loop -/

/-- Any weight may be replaced by any number of smaller ones. -/
def Lighter : Multiset Nat → Multiset Nat → Prop :=
  Relation.CutExpand (· < ·)

theorem wellFounded_lighter : WellFounded Lighter :=
  wellFounded_lt.cutExpand

/-- The weights of the items on a stack. -/
def weights (w : Worklist ι σ ε) (items : List ι) : Multiset Nat :=
  (items.map w.weight : List Nat)

/-- What an item gives is lighter than the item, whatever lies below. -/
theorem lighter_step (w : Worklist ι σ ε) {item : ι} {s s' : σ} {more : List ι}
    (h : w.step item s = .ok (more, s')) (items : List ι) :
    Lighter (w.weights (more ++ items)) (w.weights (item :: items)) := by
  refine ⟨w.weights more, w.weight item, ?_, ?_⟩
  · intro n hn
    obtain ⟨next, hnext, rfl⟩ := List.mem_map.1 (Multiset.mem_coe.1 hn)
    exact w.weight_lt h next hnext
  · have hmore : w.weights (more ++ items) = w.weights more + w.weights items := by
      rw [weights, List.map_append, ← Multiset.coe_add]
      rfl
    have hitem : w.weights (item :: items) = {w.weight item} + w.weights items := rfl
    rw [hmore, hitem]
    ac_rfl

/-- Does the items on a stack, from the top, until none is left or one fails. -/
def run (w : Worklist ι σ ε) : List ι → σ → Except ε σ
  | [], s => .ok s
  | item :: items, s =>
    match _h : w.step item s with
    | .error e => .error e
    | .ok (more, s) => run w (more ++ items) s
  termination_by items => wellFounded_lighter.wrap (w.weights items)
  decreasing_by exact lighter_step w _h items

@[simp]
theorem run_nil (w : Worklist ι σ ε) (s : σ) : w.run [] s = .ok s := by
  rw [run]

theorem run_cons (w : Worklist ι σ ε) (item : ι) (items : List ι) (s : σ) :
    w.run (item :: items) s = (w.step item s).bind fun r => w.run (r.1 ++ items) r.2 := by
  rw [run]
  split
  · rename_i h
    rw [h]
    rfl
  · rename_i h
    rw [h]
    rfl

/-! ## One item after the other -/

/-- What lies on top is done first, and the rest in the state that is left. -/
theorem run_append (w : Worklist ι σ ε) (items others : List ι) (s : σ) :
    w.run (items ++ others) s = (w.run items s).bind (w.run others) := by
  fun_induction run w items s with
  | case1 s => rfl
  | case2 item items s e h =>
    rw [List.cons_append, run_cons, h]
    rfl
  | case3 item items s more s' h ih =>
    rw [List.cons_append, run_cons, h]
    simpa [Except.bind] using ih

theorem run_single (w : Worklist ι σ ε) (item : ι) (s : σ) :
    w.run [item] s = (w.step item s).bind fun r => w.run r.1 r.2 := by
  rw [run_cons]
  simp only [List.append_nil]

theorem run_eq_foldlM (w : Worklist ι σ ε) (items : List ι) (s : σ) :
    w.run items s = items.foldlM (fun s item => w.run [item] s) s := by
  induction items generalizing s with
  | nil => exact w.run_nil s
  | cons item items ih =>
    have happend := w.run_append [item] items s
    rw [List.singleton_append] at happend
    rw [happend, List.foldlM_cons]
    exact congrArg (w.run [item] s).bind (funext ih)

end Worklist

end TreeReduction
