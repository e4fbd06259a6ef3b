import TreeReduction.Proofs.NodeTrees
import TreeReduction.Proofs.Worklists

set_option autoImplicit false

/-!
# Measuring and checking a tree

A tree is measured and checked by visits to its nodes that need no recursion: the nodes still to be
visited wait on a stack, each with the level at which it lies, and the children of a visited node
are put on it, so that the last of them is visited next (`Value.sweep`). A sweep that measures comes
to the depth, the width and the number of nodes as these are defined by recursion
(`Value.measured_eq`), and one that checks stops at the violation that `Value.check` reports
(`Value.checked_eq`).

What is reported is true of the tree: `Value.Breaks` says what each violation tells about it. A
container is only visited within the levels that are allowed, and so the first one past them lies
exactly one level too deep.
-/

namespace TreeReduction

namespace Value

/-! ## Children -/

/-- The children of a node in order. -/
def children : Value → List Value
  | .list items => items
  | .map entries => Entries.values entries
  | _ => []

theorem part_of_mem_children {u v x : Value} (hx : x ∈ v.children) (hu : Part u x) : Part u v := by
  cases v with
  | list items => exact .item hx hu
  | map entries =>
    obtain ⟨p, hp, rfl⟩ := List.mem_map.1 hx
    exact .entry hp hu
  | _ => simp [children] at hx

/-- Induction over a tree that does not look at what its nodes are. -/
@[elab_as_elim]
theorem childInduct {motive : Value → Prop} (node : ∀ v, (∀ x ∈ v.children, motive x) → motive v)
    (v : Value) : motive v := by
  induction v using induct with
  | scalar v hv =>
    refine node v fun x hx => ?_
    cases v <;> simp [isScalar, children] at hv hx
  | list items ih => exact node _ ih
  | map entries ih => exact node _ (List.forall_mem_map.2 ih)

theorem depth_eq (v : Value) :
    v.depth = if v.isScalar then 0 else depthItems v.children + 1 := by
  cases v with
  | map entries => exact congrArg (· + 1) (depthEntries_eq entries)
  | _ => rfl

theorem width_eq (v : Value) : v.width = max v.children.length (widthItems v.children) := by
  cases v with
  | map entries => simp [width, widthEntries_eq, children, Entries.values]
  | _ => rfl

theorem nodes_eq (v : Value) : v.nodes = nodesItems v.children + 1 := by
  cases v with
  | map entries => exact congrArg (· + 1) (nodesEntries_eq entries)
  | _ => rfl

theorem nodes_lt_of_mem_children {v x : Value} (hx : x ∈ v.children) : x.nodes < v.nodes := by
  rw [nodes_eq v]
  exact Nat.lt_succ_of_le (nodes_le_of_mem hx)

theorem depth_lt_of_mem_children {v x : Value} (hx : x ∈ v.children) : x.depth < v.depth := by
  have hle := (depthItems_le_iff v.children _).1 (Nat.le_refl _) x hx
  have hcontainer : v.isScalar = false := by
    cases v <;> simp [children, isScalar] at hx ⊢
  rw [depth_eq v, hcontainer]
  simpa using Nat.lt_succ_of_le hle

/-! ## Breadth -/

/-- One of several trees is as wide as all of them, unless none has any width. -/
theorem widthItems_cases (items : List Value) :
    widthItems items = 0 ∨ ∃ x ∈ items, x.width = widthItems items := by
  induction items with
  | nil => exact .inl rfl
  | cons x rest ih =>
    rw [widthItems]
    rcases Nat.le_total (widthItems rest) x.width with hle | hle
    · exact .inr ⟨x, by simp, (Nat.max_eq_left hle).symm⟩
    · rw [Nat.max_eq_right hle]
      rcases ih with hzero | ⟨y, hy, hwidth⟩
      · exact .inl hzero
      · exact .inr ⟨y, by simp [hy], hwidth⟩

/-- The width of a tree is the largest number of children of its nodes. -/
theorem isGreatest_width (v : Value) :
    (∀ u, Part u v → u.children.length ≤ v.width) ∧
      ∃ u, Part u v ∧ u.children.length = v.width := by
  constructor
  · intro u hu
    induction hu with
    | self => exact (Nat.le_max_left ..).trans (width_eq u).ge
    | item hx _ ih =>
      exact ih.trans ((widthItems_le_iff _ _).1 (Nat.le_max_right ..) _ hx)
    | entry hp _ ih =>
      refine ih.trans ?_
      rw [width, widthEntries_eq]
      exact (widthItems_le_iff _ _).1 (Nat.le_max_right ..) _ (List.mem_map_of_mem hp)
  · induction v using childInduct with
    | node v ih =>
      rw [width_eq]
      rcases Nat.lt_or_ge v.children.length (widthItems v.children) with hlt | hle
      · rw [Nat.max_eq_right hlt.le]
        obtain ⟨x, hx, hwidth⟩ := (widthItems_cases v.children).resolve_left (by omega)
        obtain ⟨u, hu, hbreadth⟩ := ih x hx
        exact ⟨u, part_of_mem_children hx hu, hbreadth.trans hwidth⟩
      · exact ⟨v, .self v, (Nat.max_eq_left hle).symm⟩

/-! ## Sweeps -/

section Sweep

variable {σ ε : Type} (visit : Value → Nat → σ → Except ε σ)

/-- Visits a node and puts its children on the stack, the last on top. -/
def sweep : Worklist (Value × Nat) σ ε where
  step item s :=
    (visit item.1 item.2 s).map fun s => (item.1.children.reverse.map (·, item.2 + 1), s)
  weight item := item.1.nodes
  weight_lt := by
    intro item s s' more h next hnext
    obtain ⟨_, -, he⟩ := map_eq_ok_iff.1 h
    rw [← (Prod.mk.inj he).1] at hnext
    obtain ⟨x, hx, rfl⟩ := List.mem_map.1 hnext
    exact nodes_lt_of_mem_children (List.mem_reverse.1 hx)

/-- A sweep of a tree visits the root and then sweeps the trees below it, the last first. -/
theorem run_sweep (v : Value) (level : Nat) (s : σ) :
    (sweep visit).run [(v, level)] s =
      (visit v level s).bind
        (v.children.foldrM fun x s => (sweep visit).run [(x, level + 1)] s) := by
  have hstep : (sweep visit).step (v, level) s =
      (visit v level s).map fun s => (v.children.reverse.map (·, level + 1), s) := rfl
  rw [Worklist.run_single, hstep]
  cases visit v level s with
  | error e => rfl
  | ok s =>
    simp only [Except.map, Except.bind]
    rw [Worklist.run_eq_foldlM, List.foldlM_map, List.foldlM_reverse]

end Sweep

end Value

/-! ## Measuring -/

namespace Extent

/-- The size of what was visited so far, when a node at some level is visited next. -/
def visit (e : Extent) (v : Value) (level : Nat) : Extent :=
  if v.isScalar then { e with nodes := e.nodes + 1 }
  else ⟨max e.depth (level + 1), max e.width v.children.length, e.nodes + 1⟩

/-- The size of what was visited so far, when a tree at some level is added to it. -/
def join (e : Extent) (v : Value) (level : Nat) : Extent :=
  ⟨max e.depth (if v.isScalar then 0 else level + v.depth), max e.width v.width,
    e.nodes + v.nodes⟩

/-- The trees below a container are added to it, which lies one level higher. -/
theorem foldrM_join {ε : Type} {f : Value → Extent → Except ε Extent} {items : List Value}
    {level : Nat} (h : ∀ x ∈ items, ∀ e, f x e = .ok (e.join x level)) {e : Extent}
    (he : level ≤ e.depth) :
    items.foldrM f e = .ok ⟨max e.depth (level + Value.depthItems items),
      max e.width (Value.widthItems items), e.nodes + Value.nodesItems items⟩ := by
  induction items with
  | nil =>
    obtain ⟨depth, width, nodes⟩ := e
    have hdepth : max depth (level + 0) = depth := Nat.max_eq_left he
    rw [Value.depthItems, Value.widthItems, Value.nodesItems, hdepth, Nat.max_zero, Nat.add_zero]
    rfl
  | cons x rest ih =>
    obtain ⟨hx, hrest⟩ := List.forall_mem_cons.1 h
    rw [List.foldrM_cons, ih hrest]
    refine (hx _).trans (congrArg Except.ok ?_)
    have hscalar : x.isScalar = true → x.depth = 0 := Value.depth_of_isScalar
    simp only [join, Value.depthItems, Value.widthItems, Value.nodesItems, Extent.mk.injEq]
    refine ⟨?_, by omega, by omega⟩
    split
    · rename_i hx
      have := hscalar hx
      omega
    · omega

end Extent

namespace Value

/-- Visits the nodes of a tree to measure it. -/
def measuring : Worklist (Value × Nat) Extent Empty :=
  sweep fun v level e => .ok (e.visit v level)

/-- The size of a tree, found by visits to its nodes. -/
def measured (v : Value) : Except Empty Extent :=
  measuring.run [(v, 0)] ⟨0, 0, 0⟩

theorem run_measuring (v : Value) (level : Nat) (e : Extent) :
    measuring.run [(v, level)] e = .ok (e.join v level) := by
  induction v using childInduct generalizing level e with
  | node v ih =>
    have hrun : measuring.run [(v, level)] e =
        v.children.foldrM (fun x e => measuring.run [(x, level + 1)] e) (e.visit v level) :=
      run_sweep _ v level e
    have hchildren : ∀ x ∈ v.children, ∀ e,
        measuring.run [(x, level + 1)] e = .ok (e.join x (level + 1)) :=
      fun x hx => ih x hx (level + 1)
    rw [hrun]
    cases hscalar : v.isScalar with
    | true =>
      have hnil : v.children = [] := by
        cases v <;> simp [isScalar] at hscalar <;> rfl
      rw [hnil, List.foldrM_nil]
      simp [Extent.visit, Extent.join, hscalar, width_of_isScalar hscalar,
        nodes_of_isScalar hscalar]
      rfl
    | false =>
      have hlevel : level + 1 ≤ (e.visit v level).depth := by
        simp [Extent.visit, hscalar]
      rw [Extent.foldrM_join hchildren hlevel]
      simp only [Extent.visit, Extent.join, hscalar, depth_eq v, width_eq v, nodes_eq v,
        Bool.false_eq_true, if_false, Except.ok.injEq, Extent.mk.injEq]
      omega

/-- Visiting the nodes of a tree finds its size. -/
theorem measured_eq (v : Value) : v.measured = .ok v.extent := by
  rw [measured, run_measuring]
  cases hscalar : v.isScalar with
  | true => simp [Extent.join, hscalar, extent, depth_of_isScalar hscalar]
  | false => simp [Extent.join, hscalar, extent]

/-! ## Checking -/

/-- Checks a node that lies at some level, but not what it holds. -/
def checkNode (limits : Limits) (v : Value) (level : Nat) : Except Violation Unit :=
  match v with
  | .float x => limits.checkFloat x
  | .list items => limits.checkContainer level items.length
  | .map entries => limits.checkContainer level entries.length
  | _ => .ok ()

/-- Visits the nodes of a tree to check them. -/
def checking (limits : Limits) : Worklist (Value × Nat) Unit Violation :=
  sweep fun v level _ => v.checkNode limits level

/-- Checks a value by visits to its nodes. -/
def checked (limits : Limits) (v : Value) : Except Violation Unit :=
  (checking limits).run [(v, 0)] ()

/-- A tree is checked from its root down. -/
theorem checkAt_eq (limits : Limits) (level : Nat) (v : Value) :
    v.checkAt limits level =
      (v.checkNode limits level).bind fun _ => checkItems limits (level + 1) v.children := by
  cases v with
  | float x =>
    rw [checkAt, checkNode]
    cases limits.checkFloat x <;> rfl
  | list items =>
    rw [checkAt, checkNode]
    cases limits.checkContainer level items.length <;> rfl
  | map entries =>
    rw [checkAt, checkNode, checkEntries_eq]
    cases limits.checkContainer level entries.length <;> rfl
  | _ => rfl

theorem foldrM_checkAt {limits : Limits} {level : Nat} {items : List Value}
    {f : Value → Unit → Except Violation Unit}
    (h : ∀ x ∈ items, ∀ s, f x s = x.checkAt limits level) (s : Unit) :
    items.foldrM f s = checkItems limits level items := by
  induction items with
  | nil => rfl
  | cons x rest ih =>
    obtain ⟨hx, hrest⟩ := List.forall_mem_cons.1 h
    rw [List.foldrM_cons, ih hrest, checkItems]
    cases checkItems limits level rest with
    | error e => rfl
    | ok s => exact hx s

theorem run_checking (limits : Limits) (v : Value) (level : Nat) (s : Unit) :
    (checking limits).run [(v, level)] s = v.checkAt limits level := by
  induction v using childInduct generalizing level s with
  | node v ih =>
    rw [checking, run_sweep, checkAt_eq]
    refine congrArg (v.checkNode limits level).bind (funext fun s => ?_)
    exact foldrM_checkAt (fun x hx => ih x hx (level + 1)) s

/-- Checking the nodes of a tree one after the other is checking the tree. -/
theorem checked_eq (limits : Limits) (v : Value) : v.checked limits = v.check limits :=
  run_checking limits v 0 ()

/-! ## Truth of what is reported -/

/-- What a violation tells about a tree whose root lies at some level. -/
inductive Breaks (limits : Limits) (level : Nat) (v : Value) : Violation → Prop where
  /-- the tree reaches at least one level past the limit -/
  | depth (h : limits.maxDepth + 1 ≤ level + v.depth) :
      Breaks limits level v (.depthExceeded (limits.maxDepth + 1) limits.maxDepth)
  /-- a node has that many children, and these are too many -/
  | width {u : Value} (hu : Part u v) (h : limits.maxWidth < u.children.length) :
      Breaks limits level v (.widthExceeded u.children.length limits.maxWidth)
  /-- a floating-point number is finite and not allowed -/
  | forbidden {x : Binary64} (hx : Part (.float x) v) (hfinite : x.isFinite = true)
      (h : limits.allowFloats = false) : Breaks limits level v .floatNotPermitted
  /-- a floating-point number is not finite -/
  | notFinite {x : Binary64} (hx : Part (.float x) v) (h : x.isFinite = false) :
      Breaks limits level v .nonFiniteFloat

/-- What is true of a child is true of the tree one level up. -/
theorem Breaks.of_child {limits : Limits} {level : Nat} {v x : Value} {violation : Violation}
    (h : x.Breaks limits (level + 1) violation) (hx : x ∈ v.children) :
    v.Breaks limits level violation := by
  cases h with
  | depth h =>
    have hlt := depth_lt_of_mem_children hx
    exact .depth (by omega)
  | width hu h => exact .width (part_of_mem_children hx hu) h
  | forbidden hu hfinite h => exact .forbidden (part_of_mem_children hx hu) hfinite h
  | notFinite hu h => exact .notFinite (part_of_mem_children hx hu) h

theorem breaks_of_checkFloat {limits : Limits} {level : Nat} {x : Binary64} {violation : Violation}
    (h : limits.checkFloat x = .error violation) :
    (Value.float x).Breaks limits level violation := by
  unfold Limits.checkFloat at h
  split at h
  · rename_i hfinite
    rw [← Except.error.inj h]
    exact .notFinite (.self _) (by simpa using hfinite)
  · rename_i hfinite
    split at h
    · rename_i hallowed
      rw [← Except.error.inj h]
      exact .forbidden (.self _) (by simpa using hfinite) (by simpa using hallowed)
    · simp at h

/-- A container is reported for its depth one level past the limit at most, as it was visited from a
level within it. -/
theorem breaks_of_checkContainer {limits : Limits} {level : Nat} (hlevel : level ≤ limits.maxDepth)
    {v : Value} (hv : v.isScalar = false) {violation : Violation}
    (h : limits.checkContainer level v.children.length = .error violation) :
    v.Breaks limits level violation := by
  unfold Limits.checkContainer at h
  split at h
  · rename_i hdeep
    have hpast : level + 1 = limits.maxDepth + 1 := by omega
    rw [← Except.error.inj h, hpast]
    refine .depth ?_
    rw [depth_eq v, hv]
    simp
    omega
  · split at h
    · rename_i hwide
      rw [← Except.error.inj h]
      exact .width (.self v) hwide
    · simp at h

/-- A violation of a node alone is true of its tree, and a node that holds anything and passes lies
above another level that is allowed. -/
theorem checkNode_cases {limits : Limits} {level : Nat} (hlevel : level ≤ limits.maxDepth)
    (v : Value) :
    (∀ violation, v.checkNode limits level = .error violation → v.Breaks limits level violation) ∧
    (v.checkNode limits level = .ok () → v.children ≠ [] → level + 1 ≤ limits.maxDepth) := by
  have hcontainer : ∀ n, limits.checkContainer level n = .ok () → level + 1 ≤ limits.maxDepth :=
    fun n h => ((limits.checkContainer_eq_ok_iff level n).1 h).1
  cases v with
  | float x => exact ⟨fun _ h => breaks_of_checkFloat h, fun _ h => absurd rfl h⟩
  | list items =>
    exact ⟨fun _ h => breaks_of_checkContainer hlevel rfl h, fun h _ => hcontainer _ h⟩
  | map entries =>
    refine ⟨fun _ h => breaks_of_checkContainer hlevel rfl ?_, fun h _ => hcontainer _ h⟩
    rw [children, Entries.values, List.length_map]
    exact h
  | _ => exact ⟨by simp [checkNode], fun _ h => absurd rfl h⟩

theorem exists_of_checkItems_error {limits : Limits} {level : Nat} {items : List Value}
    {violation : Violation} (h : checkItems limits level items = .error violation) :
    ∃ x ∈ items, x.checkAt limits level = .error violation := by
  induction items with
  | nil => simp [checkItems] at h
  | cons x rest ih =>
    rw [checkItems] at h
    split at h
    · rename_i hrest
      obtain ⟨y, hy, hcheck⟩ := ih (Except.error.inj h ▸ hrest)
      exact ⟨y, by simp [hy], hcheck⟩
    · exact ⟨x, by simp, h⟩

/-- The check of a tree within the levels that are allowed reports what is true of it. -/
theorem breaks_of_checkAt {limits : Limits} {level : Nat} (hlevel : level ≤ limits.maxDepth)
    {v : Value} {violation : Violation} (h : v.checkAt limits level = .error violation) :
    v.Breaks limits level violation := by
  induction v using childInduct generalizing level with
  | node v ih =>
    obtain ⟨hnode, hbelow⟩ := checkNode_cases hlevel v
    rw [checkAt_eq] at h
    cases hcheck : v.checkNode limits level with
    | error e =>
      rw [hcheck] at h
      exact Except.error.inj h ▸ hnode e hcheck
    | ok _ =>
      rw [hcheck] at h
      obtain ⟨x, hx, herror⟩ := exists_of_checkItems_error h
      exact (ih x hx (hbelow hcheck (List.ne_nil_of_mem hx)) herror).of_child hx

/-- The check lets in exactly the values that overrun nothing, hold no floating-point number but
finite ones, and none at all unless they are allowed; and what it reports otherwise is true of the
value. Visits to the nodes of the tree check and measure the same. The measured width is the largest
number of children of one node. -/
theorem check_exact (limits : Limits) (v : Value) :
    (v.check limits = .ok () ↔
      v.overrun? limits = none ∧ v.FiniteFloats ∧ (limits.allowFloats = true ∨ v.FloatFree)) ∧
    (∀ violation, v.check limits = .error violation → v.Breaks limits 0 violation) ∧
    v.checked limits = v.check limits ∧
    v.measured = .ok ⟨v.depth, v.width, v.nodes⟩ ∧
    (∀ u, Part u v → u.children.length ≤ v.width) ∧
    ∃ u, Part u v ∧ u.children.length = v.width := by
  refine ⟨?_, fun violation h => breaks_of_checkAt (Nat.zero_le _) h, checked_eq limits v,
    measured_eq v, isGreatest_width v⟩
  rw [check_eq_ok_iff, overrun?_eq_none_iff, and_assoc]
  rfl

/-- The last child is looked at first, so a list that is too wide there is reported before the first
child, which lies too deep. -/
theorem check_exact_widest :
    let limits : Limits := { maxDepth := 2, maxWidth := 2 }
    let v : Value := .list [.list [.list []], .map [("a", .null), ("b", .null), ("c", .null)]]
    v.check limits = .error (.widthExceeded 3 2) ∧ v.checked limits = .error (.widthExceeded 3 2) ∧
      v.Breaks limits 0 (.widthExceeded 3 2) ∧ v.measured = .ok ⟨3, 3, 7⟩ := by
  intro limits v
  have hcheck : v.check limits = .error (.widthExceeded 3 2) := rfl
  obtain ⟨-, hbreaks, hchecked, hmeasured, -⟩ := check_exact limits v
  exact ⟨hcheck, hchecked.trans hcheck, hbreaks _ hcheck, hmeasured⟩

end Value

end TreeReduction
