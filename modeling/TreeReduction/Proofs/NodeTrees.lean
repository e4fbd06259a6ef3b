import Mathlib.Data.List.Forall2
import TreeReduction.Proofs.Admission
import TreeReduction.Proofs.Graphs
import TreeReduction.Proofs.Instantiation

set_option autoImplicit false

/-!
# The tree below a node

`Graph.Unfolds` says what tree a node stands for, without a word about how it is found: a shared
node stands for the same tree wherever it is, lists keep their order, and maps are put in key order.
A node stands for at most one tree (`Graph.Unfolds.unique`), and for one at all exactly when it
reaches no cycle (`Graph.acyclic_iff_exists_unfolds`).

Lists and maps are treated alike: `Node.order` are the children of either in the order of the tree,
and `Node.build` puts their trees together.
-/

namespace TreeReduction

/-! ## Lists side by side -/

section Forall₂

variable {α β : Type} {R : α → β → Prop} {as : List α}

theorem exists_forall₂ (h : ∀ a ∈ as, ∃ b, R a b) : ∃ bs, List.Forall₂ R as bs := by
  induction as with
  | nil => exact ⟨[], .nil⟩
  | cons a rest ih =>
    rw [List.forall_mem_cons] at h
    obtain ⟨b, hb⟩ := h.1
    obtain ⟨bs, hbs⟩ := ih h.2
    exact ⟨b :: bs, .cons hb hbs⟩

theorem eq_of_forall₂ {bs bs' : List β} (h : List.Forall₂ (fun a b => ∀ b', R a b' → b = b') as bs)
    (h' : List.Forall₂ R as bs') : bs = bs' := by
  induction h generalizing bs' with
  | nil =>
    cases h'
    rfl
  | cons hb _ ih =>
    cases h' with
    | cons hb' hrest' => rw [hb _ hb', ih hrest']

theorem forall₂_and_right_iff {P : β → Prop} {bs : List β} :
    List.Forall₂ (fun a b => R a b ∧ P b) as bs ↔ List.Forall₂ R as bs ∧ ∀ b ∈ bs, P b := by
  constructor
  · intro h
    induction h with
    | nil => simp
    | cons hab _ ih => exact ⟨.cons hab.1 ih.1, List.forall_mem_cons.2 ⟨hab.2, ih.2⟩⟩
  · rintro ⟨h, hP⟩
    induction h with
    | nil => exact .nil
    | cons hab _ ih =>
      rw [List.forall_mem_cons] at hP
      exact .cons ⟨hab, hP.1⟩ (ih hP.2)

end Forall₂

namespace Value

/-! ## The nodes of a value -/

/-- The entries of a map have as many nodes as a list of what they hold. -/
theorem nodesEntries_eq (entries : List (String × Value)) :
    nodesEntries entries = nodesItems (entries.map (·.2)) := by
  induction entries with
  | nil => rfl
  | cons p rest ih => simp only [nodesEntries, List.map_cons, nodesItems, ih]

theorem nodes_of_isScalar {v : Value} (h : v.isScalar = true) : v.nodes = 1 := by
  cases v <;> simp_all [isScalar, nodes]

theorem nodes_le_of_mem {items : List Value} {x : Value} (hx : x ∈ items) :
    x.nodes ≤ nodesItems items := by
  induction items with
  | nil => simp at hx
  | cons y rest ih =>
    rw [nodesItems]
    rcases List.mem_cons.1 hx with rfl | hx
    · omega
    · have := ih hx
      omega

/-- The level does not matter to a scalar. -/
theorem checkAt_of_isScalar {v : Value} (h : v.isScalar = true) (limits : Limits) (level : Nat) :
    v.checkAt limits level = v.check limits := by
  cases v <;> simp_all [isScalar, check, checkAt]

/-- Only a floating-point number can be wrong with a scalar. -/
theorem check_error_of_isScalar {v : Value} (h : v.isScalar = true) {limits : Limits}
    {violation : Violation} (hcheck : v.check limits = .error violation) :
    violation = .nonFiniteFloat ∨ violation = .floatNotPermitted := by
  cases v with
  | float x =>
    simp only [check, checkAt, Limits.checkFloat] at hcheck
    split at hcheck
    · exact .inl (Except.error.inj hcheck).symm
    · split at hcheck
      · exact .inr (Except.error.inj hcheck).symm
      · simp at hcheck
  | list | map => simp [isScalar] at h
  | _ => simp [check, checkAt] at hcheck

end Value

theorem Limits.checkContainer_error {limits : Limits} {level width : Nat} {violation : Violation}
    (h : limits.checkContainer level width = .error violation) :
    violation = .depthExceeded (level + 1) limits.maxDepth ∨
      violation = .widthExceeded width limits.maxWidth := by
  unfold checkContainer at h
  split at h
  · exact .inl (Except.error.inj h).symm
  · split at h
    · exact .inr (Except.error.inj h).symm
    · simp at h

/-! ## Nodes as containers -/

namespace Node

/-- Whether a node holds a value. -/
def isLeaf : Node → Bool
  | .leaf _ => true
  | _ => false

theorem isLeaf_iff {node : Node} : node.isLeaf = true ↔ ∃ v, node = .leaf v := by
  cases node <;> simp [isLeaf]

/-- The children of a node in the order of its tree. -/
def order : Node → List Nat
  | .map entries => Entries.values (Entries.ofList entries)
  | node => node.children

/-- The tree of a node, given those of its children in order. -/
def build : Node → List Value → Value
  | .leaf v, _ => v
  | .list _, items => .list items
  | .map entries, values => .map ((Entries.keys (Entries.ofList entries)).zip values)

section Fits

variable {size : Nat} {node : Node}

/-- Putting the entries of a map in order keeps them all. -/
theorem Fits.ofList_perm (h : node.Fits size) {entries : List (String × Nat)}
    (hnode : node = .map entries) : (Entries.ofList entries).Perm entries :=
  Entries.ofList_perm (h.nodup_keys entries hnode)

theorem Fits.order_perm (h : node.Fits size) : node.order.Perm node.children := by
  cases node with
  | leaf | list => exact .refl _
  | map entries => exact (h.ofList_perm rfl).map _

end Fits

theorem map_snd_build {entries : List (String × Nat)} {values : List Value}
    (h : values.length = (order (.map entries)).length) :
    ((Entries.keys (Entries.ofList entries)).zip values).map (·.2) = values := by
  refine List.map_snd_zip ?_
  simp only [h, order, Entries.keys, Entries.values, List.length_map, Nat.le_refl]

/-- The tree of a map has its keys in order. -/
theorem ordered_build {entries : List (String × Nat)} {values : List Value}
    (h : values.length = (order (.map entries)).length) :
    Entries.Ordered ((Entries.keys (Entries.ofList entries)).zip values) :=
  Entries.ordered_zip (Entries.ordered_ofList entries) (h.trans (List.length_map ..))

theorem nodes_build {node : Node} (hleaf : node.isLeaf = false) {items : List Value}
    (h : items.length = node.order.length) :
    (node.build items).nodes = Value.nodesItems items + 1 := by
  cases node with
  | leaf => simp [isLeaf] at hleaf
  | list => rfl
  | map entries => rw [build, Value.nodes, Value.nodesEntries_eq, map_snd_build h]

/-- The tree of a container passes when the container does and, one level down, its children do. -/
theorem checkAt_build {node : Node} (hleaf : node.isLeaf = false) {items : List Value}
    (h : items.length = node.order.length) {size : Nat} (hfits : node.Fits size) (limits : Limits)
    (level : Nat) :
    (node.build items).checkAt limits level = .ok () ↔
      limits.checkContainer level node.children.length = .ok () ∧
        ∀ x ∈ items, x.checkAt limits (level + 1) = .ok () := by
  have hlength : items.length = node.children.length := h.trans hfits.order_perm.length_eq
  rw [← hlength, ← Value.checkItems_eq_ok_iff]
  cases node with
  | leaf => simp [isLeaf] at hleaf
  | list =>
    rw [build, Value.checkAt]
    cases limits.checkContainer level items.length <;> simp
  | map entries =>
    have hwidth : ((Entries.keys (Entries.ofList entries)).zip items).length = items.length := by
      rw [← List.length_map (·.2), map_snd_build h]
    rw [build, Value.checkAt, hwidth, Value.checkEntries_eq, map_snd_build h]
    cases limits.checkContainer level items.length <;> simp

end Node

namespace Graph

variable {g : Graph}

theorem edge_iff {i j : Nat} {node : Node} (hi : g.node? i = some node) :
    g.Edge i j ↔ j ∈ node.children := by
  constructor
  · rintro ⟨other, hother, hj⟩
    exact Option.some.inj (hi.symm.trans hother) ▸ hj
  · exact fun hj => ⟨node, hi, hj⟩

theorem WellFormed.edge_iff_mem_order (hg : g.WellFormed) {i j : Nat} {node : Node}
    (hi : g.node? i = some node) : g.Edge i j ↔ j ∈ node.order := by
  rw [edge_iff hi, (hg i node hi).order_perm.mem_iff]

/-! ## What a node stands for -/

/-- A node stands for a tree: a leaf for its value, a list for the trees of its children in their
order, a map for those of its children in the order of their keys. -/
inductive Unfolds (g : Graph) : Nat → Value → Prop where
  | leaf {i : Nat} {v : Value} (hi : g.node? i = some (.leaf v)) : Unfolds g i v
  | list {i : Nat} {children : List Nat} {items : List Value}
      (hi : g.node? i = some (.list children)) (hitems : List.Forall₂ (Unfolds g) children items) :
      Unfolds g i (.list items)
  | map {i : Nat} {entries sorted : List (String × Nat)} {values : List Value}
      (hi : g.node? i = some (.map entries)) (hperm : sorted.Perm entries)
      (hsorted : Entries.Ordered sorted)
      (hvalues : List.Forall₂ (Unfolds g) (Entries.values sorted) values) :
      Unfolds g i (.map ((Entries.keys sorted).zip values))

theorem unfolds_leaf_iff {i : Nat} {v w : Value} (hi : g.node? i = some (.leaf v)) :
    g.Unfolds i w ↔ w = v := by
  constructor
  · intro h
    cases h with
    | leaf h => simpa [hi, eq_comm] using h
    | list h | map h => simp [hi] at h
  · rintro rfl
    exact .leaf hi

/-- A container stands for what its children stand for, put together in order. -/
theorem unfolds_container_iff (hg : g.WellFormed) {i : Nat} {node : Node} {w : Value}
    (hi : g.node? i = some node) (hleaf : node.isLeaf = false) :
    g.Unfolds i w ↔ ∃ items, w = node.build items ∧ List.Forall₂ g.Unfolds node.order items := by
  constructor
  · intro h
    cases h with
    | leaf h =>
      obtain rfl : node = _ := Option.some.inj (hi.symm.trans h)
      simp [Node.isLeaf] at hleaf
    | list h hitems =>
      obtain rfl : node = _ := Option.some.inj (hi.symm.trans h)
      exact ⟨_, rfl, hitems⟩
    | map h hperm hsorted hvalues =>
      obtain rfl : node = _ := Option.some.inj (hi.symm.trans h)
      rw [← Entries.ofList_eq_of_perm hperm hsorted] at hvalues ⊢
      exact ⟨_, rfl, hvalues⟩
  · rintro ⟨items, rfl, hitems⟩
    cases node with
    | leaf => simp [Node.isLeaf] at hleaf
    | list => exact .list hi hitems
    | map entries =>
      exact .map hi ((hg i _ hi).ofList_perm rfl) (Entries.ordered_ofList entries) hitems

theorem Unfolds.exists_node? {i : Nat} {v : Value} (h : g.Unfolds i v) :
    ∃ node, g.node? i = some node := by
  cases h with
  | leaf hi | list hi | map hi => exact ⟨_, hi⟩

/-- Induction over the tree that a node stands for. -/
theorem Unfolds.induct {motive : Nat → Value → Prop}
    (leaf : ∀ i v, g.node? i = some (.leaf v) → motive i v)
    (container : ∀ i node items, g.node? i = some node → node.isLeaf = false →
      List.Forall₂ g.Unfolds node.order items → List.Forall₂ motive node.order items →
      motive i (node.build items))
    {i : Nat} {v : Value} (h : g.Unfolds i v) : motive i v := by
  refine @Unfolds.rec g (fun i v _ => motive i v) (fun is vs _ => List.Forall₂ motive is vs)
    ?_ ?_ ?_ .nil ?_ i v h
  · exact fun {i v} hi => leaf i v hi
  · exact fun {i children items} hi hitems ih => container i _ items hi rfl hitems ih
  · intro i entries sorted values hi hperm hsorted hvalues ih
    rw [← Entries.ofList_eq_of_perm hperm hsorted] at hvalues ih ⊢
    exact container i _ values hi rfl hvalues ih
  · exact fun _ _ ihx ihrest => .cons ihx ihrest

/-- A node stands for one tree at most. -/
theorem Unfolds.unique (hg : g.WellFormed) {i : Nat} {v w : Value} (hv : g.Unfolds i v)
    (hw : g.Unfolds i w) : v = w := by
  refine Unfolds.induct (motive := fun i v => ∀ w, g.Unfolds i w → v = w) ?_ ?_ hv w hw
  · exact fun i v hi w hw => ((unfolds_leaf_iff hi).1 hw).symm
  · intro i node items hi hleaf _ ih w hw
    obtain ⟨others, rfl, hothers⟩ := (unfolds_container_iff hg hi hleaf).1 hw
    rw [eq_of_forall₂ ih hothers]

/-! ## Trees and cycles -/

/-- What a node has a reference to stands for a smaller tree. -/
theorem Unfolds.exists_of_edge (hg : g.WellFormed) {i j : Nat} {v : Value} (h : g.Unfolds i v)
    (hij : g.Edge i j) : ∃ u, g.Unfolds j u ∧ u.nodes < v.nodes := by
  obtain ⟨node, hi⟩ := h.exists_node?
  cases hleaf : node.isLeaf with
  | true =>
    rw [edge_iff hi] at hij
    cases node <;> simp_all [Node.isLeaf, Node.children]
  | false =>
    obtain ⟨items, rfl, hitems⟩ := (unfolds_container_iff hg hi hleaf).1 h
    rw [hg.edge_iff_mem_order hi] at hij
    rw [Node.nodes_build hleaf hitems.length_eq.symm]
    obtain ⟨u, hu, hju⟩ := Value.exists_left_of_mem hitems.flip hij
    exact ⟨u, hju, Nat.lt_succ_of_le (Value.nodes_le_of_mem hu)⟩

theorem Unfolds.exists_of_below (hg : g.WellFormed) {i j : Nat} {v : Value} (h : g.Unfolds i v)
    (hij : g.Below i j) : ∃ u, g.Unfolds j u ∧ u.nodes < v.nodes := by
  induction hij with
  | single hij => exact h.exists_of_edge hg hij
  | tail _ hlast ih =>
    obtain ⟨u, hu, hlt⟩ := ih
    obtain ⟨w, hw, hlt'⟩ := hu.exists_of_edge hg hlast
    exact ⟨w, hw, Nat.lt_trans hlt' hlt⟩

/-- What stands for a tree does not lie below itself: the tree would be smaller than itself. -/
theorem Unfolds.not_below (hg : g.WellFormed) {i : Nat} {v : Value} (h : g.Unfolds i v) :
    ¬g.Below i i := by
  intro hii
  obtain ⟨u, hu, hlt⟩ := h.exists_of_below hg hii
  rw [hu.unique hg h] at hlt
  exact Nat.lt_irrefl _ hlt

theorem Unfolds.acyclic (hg : g.WellFormed) {i : Nat} {v : Value} (h : g.Unfolds i v) :
    g.Acyclic i := by
  intro j hj
  rcases Relation.reflTransGen_iff_eq_or_transGen.1 hj with rfl | hij
  · exact h.not_below hg
  · obtain ⟨u, hu, -⟩ := h.exists_of_below hg hij
    exact hu.not_below hg

/-- A node stands for a tree exactly when it reaches no cycle. -/
theorem acyclic_iff_exists_unfolds (hg : g.WellFormed) {root : Nat} (hroot : root < g.size) :
    g.Acyclic root ↔ ∃ v, g.Unfolds root v := by
  refine ⟨fun h => ?_, fun ⟨v, hv⟩ => hv.acyclic hg⟩
  refine h.induct (motive := fun i => ∃ v, g.Unfolds i v) hg hroot fun i hi ih => ?_
  obtain ⟨node, hnode⟩ := exists_node? hi
  cases hleaf : node.isLeaf with
  | true =>
    cases node with
    | leaf v => exact ⟨v, .leaf hnode⟩
    | list | map => simp [Node.isLeaf] at hleaf
  | false =>
    obtain ⟨items, hitems⟩ := exists_forall₂ fun j hj => ih j ((hg.edge_iff_mem_order hnode).2 hj)
    exact ⟨_, (unfolds_container_iff hg hnode hleaf).2 ⟨items, rfl, hitems⟩⟩

end Graph

end TreeReduction
