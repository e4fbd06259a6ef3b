import TreeReduction.Graph.Unfold
import TreeReduction.Proofs.NodeTrees

set_option autoImplicit false

/-!
# Unfolding a node

Unfolding answers the tree that a node stands for when this tree keeps the limits and is not too
large (`Graph.unfold_eq_ok_iff`), and otherwise a fault that is really there (`Graph.Fault`).

It goes down a trail, and the containers on the trail are what it watches for a cycle: one that
comes up again lies below itself. So a trail that is gone down holds nothing twice and is never
longer than there are nodes, which is why the recursion has room enough. `Graph.unfoldFrom_induct`
says this once for all that is proved about it.
-/

namespace TreeReduction.Graph

variable {g : Graph} {limits : Limits}

/-! ## Children -/

theorem length_of_unfoldEach {unfold : Nat → Nat → Except Violation (Value × Nat)}
    {children : List Nat} {count after : Nat} {items : List Value}
    (h : unfoldEach unfold children count = .ok (items, after)) :
    items.length = children.length := by
  induction children generalizing count items with
  | nil =>
    obtain ⟨rfl, -⟩ := Prod.mk.inj (Except.ok.inj h)
    rfl
  | cons child rest ih =>
    rw [unfoldEach] at h
    split at h
    · simp at h
    · obtain ⟨⟨vs, last⟩, hvs, he⟩ := map_eq_ok_iff.1 h
      obtain ⟨rfl, rfl⟩ := Prod.mk.inj he
      rw [List.length_cons, ih hvs, List.length_cons]

/-- When each child counts the nodes of its tree, so do all of them together. -/
theorem unfoldEach_eq_ok_iff {unfold : Nat → Nat → Except Violation (Value × Nat)}
    {P : Nat → Value → Prop} {children : List Nat}
    (h : ∀ child ∈ children, ∀ count v after, unfold child count = .ok (v, after) ↔
      P child v ∧ after = count + v.nodes ∧ after ≤ maxNodes)
    {count : Nat} (hcount : count ≤ maxNodes) (items : List Value) (after : Nat) :
    unfoldEach unfold children count = .ok (items, after) ↔
      List.Forall₂ P children items ∧ after = count + Value.nodesItems items ∧
        after ≤ maxNodes := by
  induction children generalizing count items after with
  | nil =>
    rw [unfoldEach, Except.ok.injEq, Prod.mk.injEq, List.forall₂_nil_left_iff]
    constructor
    · rintro ⟨rfl, rfl⟩
      exact ⟨rfl, rfl, hcount⟩
    · rintro ⟨rfl, rfl, -⟩
      exact ⟨rfl, rfl⟩
  | cons child rest ih =>
    obtain ⟨hchild, hrest⟩ := List.forall_mem_cons.1 h
    rw [unfoldEach]
    constructor
    · intro hok
      split at hok
      · simp at hok
      · rename_i v middle hv
        obtain ⟨hP, rfl, hmiddle⟩ := (hchild count v middle).1 hv
        obtain ⟨⟨vs, last⟩, hvs, he⟩ := map_eq_ok_iff.1 hok
        obtain ⟨rfl, rfl⟩ := Prod.mk.inj he
        obtain ⟨hPs, rfl, hlast⟩ := (ih hrest hmiddle vs last).1 hvs
        exact ⟨.cons hP hPs, by rw [Value.nodesItems, Nat.add_assoc], hlast⟩
    · rintro ⟨hPs, rfl, hlast⟩
      cases hPs with
      | @cons _ v _ vs hP hPs =>
        rw [Value.nodesItems, ← Nat.add_assoc] at hlast ⊢
        have hmiddle : count + v.nodes ≤ maxNodes := Nat.le_of_add_right_le hlast
        rw [(hchild count v _).2 ⟨hP, rfl, hmiddle⟩]
        exact map_eq_ok_iff.2 ⟨(vs, _), (ih hrest hmiddle vs _).2 ⟨hPs, rfl, hlast⟩, rfl⟩

/-- When unfolding children fails, one of them fails. -/
theorem exists_of_unfoldEach_error {unfold : Nat → Nat → Except Violation (Value × Nat)}
    {children : List Nat} {count : Nat} {violation : Violation}
    (h : unfoldEach unfold children count = .error violation) :
    ∃ child ∈ children, ∃ before, unfold child before = .error violation := by
  induction children generalizing count with
  | nil => simp [unfoldEach] at h
  | cons child rest ih =>
    rw [unfoldEach] at h
    split at h
    · rename_i hchild
      rw [Except.error.inj h] at hchild
      exact ⟨child, by simp, count, hchild⟩
    · rename_i v middle hv
      obtain ⟨next, hnext, before, hbefore⟩ := ih (map_eq_error_iff.1 h)
      exact ⟨next, by simp [hnext], before, hbefore⟩

/-! ## One node -/

section Node

variable {room : Nat} {path : List Nat} {i count : Nat}

theorem unfoldFrom_of_tooLarge (hcount : maxNodes < count + 1) :
    g.unfoldFrom limits room path i count = .error (.tooLarge maxNodes) := by
  unfold unfoldFrom
  rw [if_pos hcount]

theorem unfoldFrom_of_none (hcount : ¬maxNodes < count + 1) (hi : g.node? i = none) :
    g.unfoldFrom limits room path i count = .error (.dangling i) := by
  unfold unfoldFrom
  rw [if_neg hcount, hi]

theorem unfoldFrom_of_leaf (hcount : ¬maxNodes < count + 1) {v : Value}
    (hi : g.node? i = some (.leaf v)) :
    g.unfoldFrom limits room path i count = (v.check limits).map fun _ => (v, count + 1) := by
  unfold unfoldFrom
  rw [if_neg hcount, hi]

/-- Checks a container and puts it together from what its children unfold to. -/
def unfoldContainer (limits : Limits) (node : Node) (level : Nat)
    (unfold : Nat → Nat → Except Violation (Value × Nat)) (count : Nat) :
    Except Violation (Value × Nat) :=
  match limits.checkContainer level node.children.length with
  | .error e => .error e
  | .ok _ => (unfoldEach unfold node.order (count + 1)).map fun r => (node.build r.1, r.2)

theorem unfoldFrom_of_container (hcount : ¬maxNodes < count + 1) {node : Node}
    (hi : g.node? i = some node) (hleaf : node.isLeaf = false) :
    g.unfoldFrom limits (room + 1) path i count =
      if i ∈ path then .error (.cycle i)
      else
        unfoldContainer limits node path.length (g.unfoldFrom limits room (i :: path)) count := by
  conv_lhs => unfold unfoldFrom
  rw [if_neg hcount, hi]
  simp only [List.contains_eq_mem, decide_eq_true_eq]
  cases node with
  | leaf => simp [Node.isLeaf] at hleaf
  | list children => rfl
  | map entries => simp only [unfoldContainer, Node.children, Entries.values, List.length_map]; rfl

end Node

/-- Everything that can happen at the end of a trail that holds nothing twice. As no such trail is
longer than there are nodes, the room for it is never used up. -/
theorem unfoldFrom_induct (hg : g.WellFormed) {root : Nat}
    {motive : List Nat → Nat → Nat → Except Violation (Value × Nat) → Prop}
    (tooLarge : ∀ path i count, maxNodes < count + 1 →
      motive path i count (.error (.tooLarge maxNodes)))
    (dangling : ∀ path i count, ¬maxNodes < count + 1 → g.Trail root path i → g.node? i = none →
      motive path i count (.error (.dangling i)))
    (leaf : ∀ path i count v, ¬maxNodes < count + 1 → g.Trail root path i →
      g.node? i = some (.leaf v) →
      motive path i count ((v.check limits).map fun _ => (v, count + 1)))
    (cycle : ∀ path i count node, ¬maxNodes < count + 1 → g.Trail root path i →
      g.node? i = some node → node.isLeaf = false → i ∈ path →
      motive path i count (.error (.cycle i)))
    (container : ∀ path i count node unfold, ¬maxNodes < count + 1 → g.Trail root path i →
      g.node? i = some node → node.isLeaf = false → i ∉ path →
      (∀ child ∈ node.order, ∀ count, motive (i :: path) child count (unfold child count)) →
      motive path i count (unfoldContainer limits node path.length unfold count))
    (room : Nat) {path : List Nat} {i : Nat} (htrail : g.Trail root path i) (hnodup : path.Nodup)
    (hroom : room + path.length = g.size + 1) (count : Nat) :
    motive path i count (g.unfoldFrom limits room path i count) := by
  induction room generalizing path i count with
  | zero =>
    have := htrail.length_le hnodup
    omega
  | succ room ih =>
    by_cases hcount : maxNodes < count + 1
    · rw [unfoldFrom_of_tooLarge hcount]
      exact tooLarge path i count hcount
    · cases hi : g.node? i with
      | none =>
        rw [unfoldFrom_of_none hcount hi]
        exact dangling path i count hcount htrail hi
      | some node =>
        cases hleaf : node.isLeaf with
        | true =>
          obtain ⟨v, rfl⟩ := Node.isLeaf_iff.1 hleaf
          rw [unfoldFrom_of_leaf hcount hi]
          exact leaf path i count v hcount htrail hi
        | false =>
          rw [unfoldFrom_of_container hcount hi hleaf]
          split
          · rename_i hpath
            exact cycle path i count node hcount htrail hi hleaf hpath
          · rename_i hpath
            refine container path i count node _ hcount htrail hi hleaf hpath fun child hchild => ?_
            have hedge : g.Edge i child := (hg.edge_iff_mem_order hi).2 hchild
            exact ih (htrail.down hedge) (List.nodup_cons.2 ⟨hpath, hnodup⟩)
              (by rw [List.length_cons]; omega)

/-! ## What is answered -/

/-- What unfolding answers for a tree that stands at some level, when some nodes were made before
it. -/
def Answers (g : Graph) (limits : Limits) (level i count : Nat) (v : Value) (after : Nat) : Prop :=
  (g.Unfolds i v ∧ v.checkAt limits level = .ok ()) ∧ after = count + v.nodes ∧ after ≤ maxNodes

section Answers

variable {i : Nat}

theorem answers_leaf_iff (hg : g.WellFormed) {u : Value} (hi : g.node? i = some (.leaf u))
    (level : Nat) {count : Nat} (hcount : count + 1 ≤ maxNodes) (v : Value) (after : Nat) :
    (u.check limits).map (fun _ => (u, count + 1)) = .ok (v, after) ↔
      g.Answers limits level i count v after := by
  have hu := hg.isScalar hi
  rw [map_eq_ok_iff, Answers, unfolds_leaf_iff hi]
  constructor
  · rintro ⟨_, hcheck, he⟩
    obtain ⟨rfl, rfl⟩ := Prod.mk.inj he
    rw [Value.checkAt_of_isScalar hu, Value.nodes_of_isScalar hu]
    exact ⟨⟨rfl, hcheck⟩, rfl, hcount⟩
  · rintro ⟨⟨rfl, hcheck⟩, rfl, -⟩
    rw [Value.checkAt_of_isScalar hu] at hcheck
    exact ⟨(), hcheck, by rw [Value.nodes_of_isScalar hu]⟩

/-- A container is answered when its children are, one level down. -/
theorem answers_container_iff (hg : g.WellFormed) {node : Node} (hi : g.node? i = some node)
    (hleaf : node.isLeaf = false) {level : Nat}
    {unfold : Nat → Nat → Except Violation (Value × Nat)}
    (h : ∀ child ∈ node.order, ∀ count v after,
      unfold child count = .ok (v, after) ↔ g.Answers limits (level + 1) child count v after)
    {count : Nat} (hcount : count + 1 ≤ maxNodes) (v : Value) (after : Nat) :
    unfoldContainer limits node level unfold count = .ok (v, after) ↔
      g.Answers limits level i count v after := by
  have heach := unfoldEach_eq_ok_iff h hcount
  simp only [forall₂_and_right_iff] at heach
  rw [unfoldContainer, Answers, unfolds_container_iff hg hi hleaf]
  constructor
  · intro hok
    split at hok
    · simp at hok
    · rename_i hcontainer
      obtain ⟨⟨items, last⟩, hitems, he⟩ := map_eq_ok_iff.1 hok
      obtain ⟨rfl, rfl⟩ := Prod.mk.inj he
      obtain ⟨⟨hunfolds, hchecks⟩, rfl, hle⟩ := (heach items last).1 hitems
      have hlength := hunfolds.length_eq.symm
      rw [Node.checkAt_build hleaf hlength (hg i node hi), Node.nodes_build hleaf hlength]
      exact ⟨⟨⟨items, rfl, hunfolds⟩, hcontainer, hchecks⟩, by omega, hle⟩
  · rintro ⟨⟨⟨items, rfl, hunfolds⟩, hcheck⟩, rfl, hle⟩
    have hlength := hunfolds.length_eq.symm
    rw [Node.checkAt_build hleaf hlength (hg i node hi)] at hcheck
    rw [Node.nodes_build hleaf hlength] at hle ⊢
    rw [hcheck.1]
    refine map_eq_ok_iff.2 ⟨(items, _), (heach items _).2 ?_, rfl⟩
    exact ⟨⟨hunfolds, hcheck.2⟩, by omega, hle⟩

theorem Answers.count_lt {level count : Nat} {v : Value} {after : Nat}
    (h : g.Answers limits level i count v after) : count + 1 ≤ maxNodes := by
  obtain ⟨-, rfl, hle⟩ := h
  have : 0 < v.nodes := by cases v <;> simp [Value.nodes]
  omega

end Answers

/-- From the end of a trail that holds nothing twice, unfolding answers the tree that stands there,
if this passes at its level and there is room for its nodes. -/
theorem unfoldFrom_eq_ok_iff (hg : g.WellFormed) (limits : Limits) {root : Nat} (room : Nat)
    {path : List Nat} {i : Nat} (htrail : g.Trail root path i) (hnodup : path.Nodup)
    (hroom : room + path.length = g.size + 1) (count : Nat) (v : Value) (after : Nat) :
    g.unfoldFrom limits room path i count = .ok (v, after) ↔
      g.Answers limits path.length i count v after := by
  refine unfoldFrom_induct (motive := fun path i count result => ∀ v after,
    result = .ok (v, after) ↔ g.Answers limits path.length i count v after) hg ?_ ?_ ?_ ?_ ?_
    room htrail hnodup hroom count v after
  · intro path i count hcount v after
    exact iff_of_false (by simp) fun h => Nat.not_le.2 hcount h.count_lt
  · intro path i count _ _ hi v after
    refine iff_of_false (by simp) fun h => ?_
    obtain ⟨node, hnode⟩ := h.1.1.exists_node?
    simp [hi] at hnode
  · intro path i count u hcount _ hi
    exact answers_leaf_iff hg hi path.length (Nat.not_lt.1 hcount)
  · -- a container on its own trail lies below itself and stands for no tree
    intro path i count node _ htrail _ _ hpath v after
    exact iff_of_false (by simp) fun h => h.1.1.not_below hg (htrail.below_of_mem hpath)
  · intro path i count node unfold hcount _ hi hleaf _ ih
    exact answers_container_iff hg hi hleaf ih (Nat.not_lt.1 hcount)

/-- Unfolding answers the tree that a node stands for, if it passes and is not too large. -/
theorem unfold_eq_ok_iff (hg : g.WellFormed) (limits : Limits) (root : Nat) (v : Value) :
    g.unfold limits root = .ok v ↔
      g.Unfolds root v ∧ v.nodes ≤ maxNodes ∧ v.check limits = .ok () := by
  have hfrom := unfoldFrom_eq_ok_iff hg limits (g.size + 1) (.start : g.Trail root [] root)
    List.nodup_nil rfl 0
  rw [unfold, map_eq_ok_iff]
  constructor
  · rintro ⟨⟨w, after⟩, hok, rfl⟩
    obtain ⟨⟨hw, hcheck⟩, rfl, hle⟩ := (hfrom w after).1 hok
    exact ⟨hw, by simpa using hle, hcheck⟩
  · rintro ⟨hv, hle, hcheck⟩
    exact ⟨(v, 0 + v.nodes), (hfrom v _).2 ⟨⟨hv, hcheck⟩, rfl, by simpa using hle⟩, rfl⟩

/-! ## What is reported -/

/-- A reason why there is no tree below a root that keeps the limits, or why it is not looked for
any further. -/
inductive Fault (g : Graph) (limits : Limits) (root : Nat) : Violation → Prop where
  /-- more than `maxNodes` nodes were met -/
  | tooLarge : Fault g limits root (.tooLarge maxNodes)
  /-- a reference leads to no node -/
  | dangling {i : Nat} (hi : g.Reaches root i) (hnone : g.node? i = none) :
      Fault g limits root (.dangling i)
  /-- a leaf is not allowed -/
  | leaf {i : Nat} {v : Value} {violation : Violation} (hi : g.Reaches root i)
      (hleaf : g.node? i = some (.leaf v)) (hcheck : v.check limits = .error violation) :
      Fault g limits root violation
  /-- a node lies below itself -/
  | cycle {i : Nat} (hi : g.Reaches root i) (hcycle : g.Below i i) : Fault g limits root (.cycle i)
  /-- a container lies too deep or is too wide -/
  | container {path : List Nat} {i : Nat} {node : Node} {violation : Violation}
      (hi : g.Trail root path i) (hnode : g.node? i = some node)
      (hcheck : limits.checkContainer path.length node.children.length = .error violation) :
      Fault g limits root violation

/-- From the end of a trail that holds nothing twice, unfolding reports a fault of the root. -/
theorem fault_of_unfoldFrom (hg : g.WellFormed) {root : Nat} (room : Nat) {path : List Nat}
    {i : Nat} (htrail : g.Trail root path i) (hnodup : path.Nodup) (hroom : room + path.length = g.size + 1)
    {count : Nat} {violation : Violation}
    (h : g.unfoldFrom limits room path i count = .error violation) :
    g.Fault limits root violation := by
  refine unfoldFrom_induct (motive := fun _ _ _ result => ∀ violation,
    result = .error violation → g.Fault limits root violation) hg ?_ ?_ ?_ ?_ ?_
    room htrail hnodup hroom count violation h
  · intro path i count _ violation h
    exact Except.error.inj h ▸ .tooLarge
  · intro path i count _ htrail hi violation h
    exact Except.error.inj h ▸ .dangling htrail.reaches hi
  · intro path i count v _ htrail hi violation h
    exact .leaf htrail.reaches hi (map_eq_error_iff.1 h)
  · intro path i count node _ htrail _ _ hpath violation h
    exact Except.error.inj h ▸ .cycle htrail.reaches (htrail.below_of_mem hpath)
  · intro path i count node unfold _ htrail hi _ _ ih violation h
    unfold unfoldContainer at h
    split at h
    · rename_i hcheck
      rw [Except.error.inj h] at hcheck
      exact .container htrail hi hcheck
    · obtain ⟨child, hchild, before, hbefore⟩ := exists_of_unfoldEach_error (map_eq_error_iff.1 h)
      exact ih child hchild before violation hbefore

theorem fault_of_unfold (hg : g.WellFormed) {root : Nat} {violation : Violation}
    (h : g.unfold limits root = .error violation) : g.Fault limits root violation :=
  fault_of_unfoldFrom hg (g.size + 1) .start List.nodup_nil rfl (map_eq_error_iff.1 h)

/-- A cycle is reported for a node that the root reaches and that lies below itself. -/
theorem Fault.cycle_spec (hg : g.WellFormed) {root i : Nat} (h : g.Fault limits root (.cycle i)) :
    g.Reaches root i ∧ g.Below i i := by
  cases h with
  | leaf hi hleaf hcheck =>
    rcases Value.check_error_of_isScalar (hg.isScalar hleaf) hcheck with h | h <;> simp at h
  | cycle hi hcycle => exact ⟨hi, hcycle⟩
  | container hi hnode hcheck =>
    rcases Limits.checkContainer_error hcheck with h | h <;> simp at h

/-- In a well-formed graph, the only reference that can lead to no node is the root. -/
theorem Fault.dangling_spec (hg : g.WellFormed) {root i : Nat}
    (h : g.Fault limits root (.dangling i)) : i = root ∧ g.size ≤ root := by
  cases h with
  | dangling hi hnone =>
    have hsize : g.size ≤ i := Array.getElem?_eq_none_iff.1 hnone
    rcases Relation.ReflTransGen.cases_tail hi with rfl | ⟨j, -, hji⟩
    · exact ⟨rfl, hsize⟩
    · exact absurd (hg.lt_size hji) (Nat.not_lt.2 hsize)
  | leaf hi hleaf hcheck =>
    rcases Value.check_error_of_isScalar (hg.isScalar hleaf) hcheck with h | h <;> simp at h
  | container hi hnode hcheck =>
    rcases Limits.checkContainer_error hcheck with h | h <;> simp at h

end TreeReduction.Graph
