import Mathlib.Data.Fintype.EquivFin
import Mathlib.Logic.Relation
import TreeReduction.Graph
import TreeReduction.Proofs.Entries

set_option autoImplicit false

/-!
# Paths in a graph

A reference leads from a node to each of its children (`Graph.Edge`). What a node reaches over
references in a row is all that can matter for its tree, and a cycle among it is what can keep it
from having one (`Graph.Acyclic`).

`Graph.WellFormed` is what makes all indices safe: no reference leads out of the graph, no map has a
key twice, and leaves are scalars. A `Graph.Trail` is a way down from a root with all containers on
it, so that one of them comes up again exactly when there is a cycle; without repetition no trail is
longer than the graph has nodes.
-/

namespace TreeReduction

/-- The references of a node in order. -/
def Node.children : Node → List Nat
  | .leaf _ => []
  | .list children => children
  | .map entries => Entries.values entries

/-- What is asked of a node in a graph of some size. -/
structure Node.Fits (size : Nat) (node : Node) : Prop where
  isScalar : ∀ v, node = .leaf v → v.isScalar = true
  lt_size : ∀ i ∈ node.children, i < size
  nodup_keys : ∀ entries, node = .map entries → (Entries.keys entries).Nodup

namespace Graph

/-! ## References -/

/-- A node has another one as a child. -/
def Edge (g : Graph) (i j : Nat) : Prop :=
  ∃ node, g.node? i = some node ∧ j ∈ node.children

/-- A node can be reached from another one over any number of references, also none. -/
def Reaches (g : Graph) : Nat → Nat → Prop :=
  Relation.ReflTransGen g.Edge

/-- A node lies below another one: it is reached over at least one reference. -/
def Below (g : Graph) : Nat → Nat → Prop :=
  Relation.TransGen g.Edge

/-- Nothing that a node reaches lies below itself. -/
def Acyclic (g : Graph) (root : Nat) : Prop :=
  ∀ i, g.Reaches root i → ¬g.Below i i

/-- Every node is as it should be. -/
def WellFormed (g : Graph) : Prop :=
  ∀ i node, g.node? i = some node → node.Fits g.size

variable {g : Graph}

theorem lt_size_of_node? {i : Nat} {node : Node} (h : g.node? i = some node) : i < g.size :=
  (Array.getElem?_eq_some_iff.1 h).1

theorem exists_node? {i : Nat} (h : i < g.size) : ∃ node, g.node? i = some node :=
  ⟨g.nodes[i], Array.getElem?_eq_getElem h⟩

/-- There are no more different nodes than nodes. -/
theorem length_le_size {nodes : List Nat} (hnodup : nodes.Nodup) (h : ∀ i ∈ nodes, i < g.size) :
    nodes.length ≤ g.size := by
  have hsubset : nodes ⊆ List.range g.size := fun i hi => List.mem_range.2 (h i hi)
  simpa using (List.subperm_of_subset hnodup hsubset).length_le

theorem WellFormed.isScalar (h : g.WellFormed) {i : Nat} {v : Value}
    (hi : g.node? i = some (.leaf v)) : v.isScalar = true :=
  (h i _ hi).isScalar v rfl

theorem WellFormed.nodup_keys (h : g.WellFormed) {i : Nat} {entries : List (String × Nat)}
    (hi : g.node? i = some (.map entries)) : (Entries.keys entries).Nodup :=
  (h i _ hi).nodup_keys entries rfl

theorem WellFormed.lt_size (h : g.WellFormed) {i j : Nat} (hij : g.Edge i j) : j < g.size := by
  obtain ⟨node, hi, hj⟩ := hij
  exact (h i node hi).lt_size j hj

/-- Without a cycle, lying below is well-founded among what a root reaches: there are only finitely
many nodes. -/
theorem Acyclic.wellFounded {root : Nat} (h : g.Acyclic root) :
    WellFounded fun i j : Fin g.size => g.Reaches root j ∧ g.Below j i := by
  have : IsTrans (Fin g.size) fun i j => g.Reaches root j ∧ g.Below j i :=
    ⟨fun _ _ _ hij hjk => ⟨hjk.1, hjk.2.trans hij.2⟩⟩
  have : Std.Irrefl fun i j : Fin g.size => g.Reaches root j ∧ g.Below j i :=
    ⟨fun i hi => h i hi.1 hi.2⟩
  exact Finite.wellFounded_of_trans_of_irrefl _

/-- Without a cycle, what a root reaches can be gone through from the leaves up. -/
theorem Acyclic.induct {motive : Nat → Prop} {root : Nat} (hg : g.WellFormed)
    (hroot : root < g.size) (h : g.Acyclic root)
    (step : ∀ i, i < g.size → (∀ j, g.Edge i j → motive j) → motive i) : motive root := by
  have hall : ∀ i : Fin g.size, g.Reaches root i → motive i := by
    intro i
    induction i using h.wellFounded.induction with
    | _ i ih =>
      refine fun hi => step i i.isLt fun j hj => ?_
      exact ih ⟨j, hg.lt_size hj⟩ ⟨hi, .single hj⟩ (hi.tail hj)
  exact hall ⟨root, hroot⟩ .refl

/-! ## Trails -/

/-- The containers on a way from a root down to a node, the nearest one first. -/
inductive Trail (g : Graph) (root : Nat) : List Nat → Nat → Prop where
  | start : Trail g root [] root
  | down {path : List Nat} {i j : Nat} (h : Trail g root path i) (hij : g.Edge i j) :
      Trail g root (i :: path) j

namespace Trail

variable {root i : Nat} {path : List Nat}

theorem reaches (h : g.Trail root path i) : g.Reaches root i := by
  induction h with
  | start => exact .refl
  | down _ hij ih => exact ih.tail hij

/-- The end of a trail lies below everything on it. -/
theorem below_of_mem (h : g.Trail root path i) {p : Nat} (hp : p ∈ path) : g.Below p i := by
  induction h with
  | start => simp at hp
  | down h hij ih =>
    rcases List.mem_cons.1 hp with rfl | hp
    · exact .single hij
    · exact (ih hp).tail hij

theorem lt_size_of_mem (h : g.Trail root path i) {p : Nat} (hp : p ∈ path) : p < g.size := by
  induction h with
  | start => simp at hp
  | down h hij ih =>
    rcases List.mem_cons.1 hp with rfl | hp
    · obtain ⟨node, hnode, -⟩ := hij
      exact lt_size_of_node? hnode
    · exact ih hp

/-- A trail that holds nothing twice is not longer than there are nodes. -/
theorem length_le (h : g.Trail root path i) (hnodup : path.Nodup) : path.length ≤ g.size :=
  length_le_size hnodup fun _ hp => h.lt_size_of_mem hp

end Trail

end Graph

end TreeReduction
