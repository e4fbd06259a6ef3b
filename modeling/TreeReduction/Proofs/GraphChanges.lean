import TreeReduction.Proofs.Unfolding

set_option autoImplicit false

/-!
# Changing a graph

A graph grows by changes that are made in place, one after the other, whether they succeed or not
(`Graph.afterAll`). Each checks what it needs before it writes anything, so a refused change leaves
the graph as it was, and it is the same whether a change is carried out in place or answers a new
graph (`Graph.Change.perform_eq`).

`Graph.Makes` is everything that a change can do and `Graph.Refuses` everything that can keep it
from being done. From the first it follows that a graph stays well-formed and that its nodes stay
what they are: containers get more children, and that is all (`Graph.Grows`).
-/

namespace TreeReduction

/-- A node stays what it is and may get more children. -/
inductive Node.Grows : Node → Node → Prop where
  | leaf (v : Value) : Grows (.leaf v) (.leaf v)
  | list (children more : List Nat) : Grows (.list children) (.list (children ++ more))
  | map (entries more : List (String × Nat)) : Grows (.map entries) (.map (entries ++ more))

theorem Node.Grows.refl (node : Node) : node.Grows node := by
  cases node with
  | leaf v => exact .leaf v
  | list children => simpa using Grows.list children []
  | map entries => simpa using Grows.map entries []

theorem Node.Grows.trans {a b c : Node} (hab : a.Grows b) (hbc : b.Grows c) : a.Grows c := by
  cases hab with
  | leaf v => exact hbc
  | list children more =>
    cases hbc with
    | list _ further => simpa using Grows.list children (more ++ further)
  | map entries more =>
    cases hbc with
    | map _ further => simpa using Grows.map entries (more ++ further)

theorem Node.Fits.mono {node : Node} {size larger : Nat} (h : node.Fits size)
    (hle : size ≤ larger) : node.Fits larger :=
  ⟨h.isScalar, fun i hi => Nat.lt_of_lt_of_le (h.lt_size i hi) hle, h.nodup_keys⟩

namespace Graph

/-! ## Changes in place -/

/-- Something that is done to a graph. -/
inductive Change where
  | leaf (value : Value)
  | list
  | map
  | push (list child : Nat)
  | insert (map : Nat) (key : String) (child : Nat)

/-- Work on a graph in place. Where it fails, the graph stays as it is by then. -/
abbrev InPlace (α : Type) : Type := EStateM Violation Graph α

namespace InPlace

/-- Adds a node and answers the last index. -/
def addNode (node : Node) : InPlace Nat := do
  modify fun g => ⟨g.nodes.push node⟩
  return (← get).size - 1

/-- Refuses a reference to no node. -/
def requireNode (i : Nat) : InPlace Unit := do
  if i < (← get).size then return ()
  else throw (.dangling i)

/-- Puts a node in the place of another one. -/
def write (i : Nat) (node : Node) : InPlace Unit :=
  modify fun g => ⟨g.nodes.setIfInBounds i node⟩

/-- Makes a change. Answers the index of a node that was added. -/
def perform : Change → InPlace (Option Nat)
  | .leaf value => do
    if value.isScalar then return some (← addNode (.leaf value))
    else throw (.notScalarLeaf value.kind)
  | .list => do return some (← addNode (.list []))
  | .map => do return some (← addNode (.map []))
  | .push list child => do
    requireNode child
    match (← get).node? list with
    | some (.list children) =>
      write list (.list (children ++ [child]))
      return none
    | some _ => throw (.notListNode list)
    | none => throw (.dangling list)
  | .insert map key child => do
    requireNode child
    match (← get).node? map with
    | some (.map entries) =>
      if entries.any fun p => p.1 == key then throw (.duplicateKey key)
      else
        write map (.map (entries ++ [(key, child)]))
        return none
    | some _ => throw (.notMapNode map)
    | none => throw (.dangling map)

end InPlace

/-- The graph after a change was made or refused. -/
def after (g : Graph) (change : Change) : Graph :=
  match InPlace.perform change g with
  | .ok _ h => h
  | .error _ h => h

/-- The graph after some changes, each made or refused. -/
def afterAll (g : Graph) (changes : List Change) : Graph :=
  changes.foldl after g

/-- A change by the functions that answer a new graph. -/
def apply (g : Graph) : Change → Except Violation (Option Nat × Graph)
  | .leaf value => (g.addLeaf value).map fun r => (some r.1, r.2)
  | .list => .ok (some g.addList.1, g.addList.2)
  | .map => .ok (some g.addMap.1, g.addMap.2)
  | .push list child => (g.push list child).map fun h => (none, h)
  | .insert map key child => (g.insert map key child).map fun h => (none, h)

/-- What is seen of a change in place: its answer with the new graph, or its violation with the old
one. -/
def settle (g : Graph) : Except Violation (Option Nat × Graph) →
    EStateM.Result Violation Graph (Option Nat)
  | .ok (answer, h) => .ok answer h
  | .error violation => .error violation g

variable {g h : Graph}

/-! ## What changes do -/

/-- A change is made, with an answer and a graph after it. -/
inductive Makes (g : Graph) : Change → Option Nat → Graph → Prop where
  | leaf {value : Value} (hscalar : value.isScalar = true) :
      Makes g (.leaf value) (some g.size) ⟨g.nodes.push (.leaf value)⟩
  | list : Makes g .list (some g.size) ⟨g.nodes.push (.list [])⟩
  | map : Makes g .map (some g.size) ⟨g.nodes.push (.map [])⟩
  | push {list child : Nat} {children : List Nat} (hchild : child < g.size)
      (hlist : g.node? list = some (.list children)) :
      Makes g (.push list child) none ⟨g.nodes.setIfInBounds list (.list (children ++ [child]))⟩
  | insert {map child : Nat} {key : String} {entries : List (String × Nat)}
      (hchild : child < g.size) (hmap : g.node? map = some (.map entries))
      (hkey : key ∉ Entries.keys entries) :
      Makes g (.insert map key child) none
        ⟨g.nodes.setIfInBounds map (.map (entries ++ [(key, child)]))⟩

/-- A change is refused. Each reason only counts when none before it does. -/
inductive Refuses (g : Graph) : Change → Violation → Prop where
  /-- a leaf is no scalar -/
  | leaf {value : Value} (hscalar : value.isScalar = false) :
      Refuses g (.leaf value) (.notScalarLeaf value.kind)
  /-- there is no such child for a list -/
  | pushChild {list child : Nat} (hchild : g.size ≤ child) :
      Refuses g (.push list child) (.dangling child)
  /-- there is no such list -/
  | pushList {list child : Nat} (hchild : child < g.size) (hlist : g.size ≤ list) :
      Refuses g (.push list child) (.dangling list)
  /-- a node is no list -/
  | pushKind {list child : Nat} {node : Node} (hchild : child < g.size)
      (hlist : g.node? list = some node) (hkind : ∀ children, node ≠ .list children) :
      Refuses g (.push list child) (.notListNode list)
  /-- there is no such child for a map -/
  | insertChild {map child : Nat} {key : String} (hchild : g.size ≤ child) :
      Refuses g (.insert map key child) (.dangling child)
  /-- there is no such map -/
  | insertMap {map child : Nat} {key : String} (hchild : child < g.size) (hmap : g.size ≤ map) :
      Refuses g (.insert map key child) (.dangling map)
  /-- a node is no map -/
  | insertKind {map child : Nat} {key : String} {node : Node} (hchild : child < g.size)
      (hmap : g.node? map = some node) (hkind : ∀ entries, node ≠ .map entries) :
      Refuses g (.insert map key child) (.notMapNode map)
  /-- a map has the key -/
  | insertKey {map child : Nat} {key : String} {entries : List (String × Nat)}
      (hchild : child < g.size) (hmap : g.node? map = some (.map entries))
      (hkey : key ∈ Entries.keys entries) :
      Refuses g (.insert map key child) (.duplicateKey key)

/-! ## In place or not -/

namespace InPlace

theorem bind_apply {α β : Type} (x : InPlace α) (f : α → InPlace β) (g : Graph) :
    (x >>= f) g =
      match x g with
      | .ok a h => f a h
      | .error violation h => .error violation h := by
  cases hx : x g <;> simp only [bind, EStateM.bind, hx]

theorem get_apply (g : Graph) : (get : InPlace Graph) g = .ok g g := rfl

theorem addNode_apply (node : Node) (g : Graph) :
    addNode node g = .ok g.size ⟨g.nodes.push node⟩ := by
  have hsize : size ⟨g.nodes.push node⟩ - 1 = g.size := by simp [size]
  exact congrArg (EStateM.Result.ok · _) hsize

theorem requireNode_apply (i : Nat) (g : Graph) :
    requireNode i g = if i < g.size then .ok () g else .error (.dangling i) g := by
  rw [requireNode, bind_apply, get_apply]
  simp only
  split <;> rfl

end InPlace

/-- In place or not, a change comes to the same. -/
theorem perform_eq (change : Change) (g : Graph) :
    InPlace.perform change g = g.settle (g.apply change) := by
  cases change with
  | leaf value =>
    rw [InPlace.perform, apply, addLeaf]
    cases hscalar : value.isScalar with
    | false => rfl
    | true =>
      simp only [if_true, InPlace.bind_apply, InPlace.addNode_apply]
      rfl
  | list | map =>
    rw [InPlace.perform, InPlace.bind_apply, InPlace.addNode_apply]
    rfl
  | push list child =>
    rw [InPlace.perform, apply, Graph.push, checkReference, InPlace.bind_apply,
      InPlace.requireNode_apply]
    by_cases hchild : child < g.size
    · simp only [if_pos hchild, InPlace.bind_apply, InPlace.get_apply]
      obtain hlist | ⟨_ | _ | _, hlist⟩ := Option.eq_none_or_eq_some (g.node? list) <;>
        rw [hlist] <;> rfl
    · simp only [if_neg hchild]
      rfl
  | insert map key child =>
    rw [InPlace.perform, apply, Graph.insert, checkReference, InPlace.bind_apply,
      InPlace.requireNode_apply]
    by_cases hchild : child < g.size
    · simp only [if_pos hchild, InPlace.bind_apply, InPlace.get_apply]
      obtain hmap | ⟨_ | _ | entries, hmap⟩ := Option.eq_none_or_eq_some (g.node? map)
      · rw [hmap]; rfl
      · rw [hmap]; rfl
      · rw [hmap]; rfl
      · rw [hmap]
        simp only
        split <;> rfl
    · simp only [if_neg hchild]
      rfl

/-! ## What a change comes to -/

theorem checkReference_of_lt {i : Nat} (hi : i < g.size) : g.checkReference i = .ok () :=
  if_pos hi

theorem checkReference_of_le {i : Nat} (hi : g.size ≤ i) :
    g.checkReference i = .error (.dangling i) :=
  if_neg (Nat.not_lt.2 hi)

theorem node?_eq_none {i : Nat} (hi : g.size ≤ i) : g.node? i = none :=
  Array.getElem?_eq_none hi

theorem any_key_iff {entries : List (String × Nat)} {key : String} :
    (entries.any fun p => p.1 == key) = true ↔ key ∈ Entries.keys entries := by
  simp [Entries.keys]

theorem Makes.apply_eq {change : Change} {answer : Option Nat} (hmakes : g.Makes change answer h) :
    g.apply change = .ok (answer, h) := by
  cases hmakes with
  | leaf hscalar => simp only [apply, addLeaf, hscalar, if_true]; rfl
  | list | map => rfl
  | push hchild hlist =>
    simp only [apply, Graph.push, checkReference_of_lt hchild, hlist]; rfl
  | insert hchild hmap hkey =>
    rw [← any_key_iff, Bool.not_eq_true] at hkey
    simp only [apply, Graph.insert, checkReference_of_lt hchild, hmap, hkey]; rfl

theorem Refuses.apply_eq {change : Change} {violation : Violation}
    (hrefuses : g.Refuses change violation) : g.apply change = .error violation := by
  cases hrefuses with
  | leaf hscalar => simp only [apply, addLeaf, hscalar]; rfl
  | pushChild hchild => simp only [apply, Graph.push, checkReference_of_le hchild]; rfl
  | pushList hchild hlist =>
    simp only [apply, Graph.push, checkReference_of_lt hchild, node?_eq_none hlist]; rfl
  | @pushKind list child node hchild hlist hkind =>
    simp only [apply, Graph.push, checkReference_of_lt hchild, hlist]
    cases node with
    | list children => exact absurd rfl (hkind children)
    | leaf | map => rfl
  | insertChild hchild => simp only [apply, Graph.insert, checkReference_of_le hchild]; rfl
  | insertMap hchild hmap =>
    simp only [apply, Graph.insert, checkReference_of_lt hchild, node?_eq_none hmap]; rfl
  | @insertKind map child key node hchild hmap hkind =>
    simp only [apply, Graph.insert, checkReference_of_lt hchild, hmap]
    cases node with
    | map entries => exact absurd rfl (hkind entries)
    | leaf | list => rfl
  | insertKey hchild hmap hkey =>
    rw [← any_key_iff] at hkey
    simp only [apply, Graph.insert, checkReference_of_lt hchild, hmap, hkey]; rfl

/-- A change is made or refused. -/
theorem makes_or_refuses (g : Graph) (change : Change) :
    (∃ answer h, g.Makes change answer h) ∨ ∃ violation, g.Refuses change violation := by
  cases change with
  | leaf value =>
    cases hscalar : value.isScalar with
    | true => exact .inl ⟨_, _, .leaf hscalar⟩
    | false => exact .inr ⟨_, .leaf hscalar⟩
  | list => exact .inl ⟨_, _, .list⟩
  | map => exact .inl ⟨_, _, .map⟩
  | push list child =>
    rcases Nat.lt_or_ge child g.size with hchild | hchild
    · rcases Nat.lt_or_ge list g.size with hlist | hlist
      · obtain ⟨node, hnode⟩ := exists_node? hlist
        cases node with
        | list children => exact .inl ⟨_, _, .push hchild hnode⟩
        | leaf | map => exact .inr ⟨_, .pushKind hchild hnode (by simp)⟩
      · exact .inr ⟨_, .pushList hchild hlist⟩
    · exact .inr ⟨_, .pushChild hchild⟩
  | insert map key child =>
    rcases Nat.lt_or_ge child g.size with hchild | hchild
    · rcases Nat.lt_or_ge map g.size with hmap | hmap
      · obtain ⟨node, hnode⟩ := exists_node? hmap
        cases node with
        | map entries =>
          by_cases hkey : key ∈ Entries.keys entries
          · exact .inr ⟨_, .insertKey hchild hnode hkey⟩
          · exact .inl ⟨_, _, .insert hchild hnode hkey⟩
        | leaf | list => exact .inr ⟨_, .insertKind hchild hnode (by simp)⟩
      · exact .inr ⟨_, .insertMap hchild hmap⟩
    · exact .inr ⟨_, .insertChild hchild⟩

/-- A change in place succeeds with what it does. -/
theorem perform_eq_ok_iff {change : Change} {answer : Option Nat} :
    InPlace.perform change g = .ok answer h ↔ g.Makes change answer h := by
  rw [perform_eq]
  constructor
  · intro hok
    rcases g.makes_or_refuses change with ⟨answer', h', hmakes⟩ | ⟨violation, hrefuses⟩
    · rw [hmakes.apply_eq] at hok
      obtain ⟨rfl, rfl⟩ := EStateM.Result.ok.inj hok
      exact hmakes
    · rw [hrefuses.apply_eq] at hok
      cases hok
  · intro hmakes
    rw [hmakes.apply_eq]
    rfl

/-- A change in place that fails was refused, and has left the graph alone. -/
theorem perform_eq_error_iff {change : Change} {violation : Violation} :
    InPlace.perform change g = .error violation h ↔ g.Refuses change violation ∧ h = g := by
  rw [perform_eq]
  constructor
  · intro herror
    rcases g.makes_or_refuses change with ⟨answer, h', hmakes⟩ | ⟨violation', hrefuses⟩
    · rw [hmakes.apply_eq] at herror
      cases herror
    · rw [hrefuses.apply_eq] at herror
      obtain ⟨rfl, rfl⟩ := EStateM.Result.error.inj herror
      exact ⟨hrefuses, rfl⟩
  · rintro ⟨hrefuses, rfl⟩
    rw [hrefuses.apply_eq]
    rfl

/-- Everything that a change can do to a graph. -/
theorem after_cases (g : Graph) (change : Change) :
    (∃ answer, g.Makes change answer (g.after change)) ∨ g.after change = g := by
  rw [after, perform_eq]
  rcases g.makes_or_refuses change with ⟨answer, h, hmakes⟩ | ⟨violation, hrefuses⟩
  · rw [hmakes.apply_eq]
    exact .inl ⟨answer, hmakes⟩
  · rw [hrefuses.apply_eq]
    exact .inr rfl

/-! ## What changes keep -/

theorem node?_push (g : Graph) (node : Node) (i : Nat) :
    node? ⟨g.nodes.push node⟩ i = if i = g.size then some node else g.node? i :=
  Array.getElem?_push

theorem node?_write (g : Graph) {i : Nat} (hi : i < g.size) (node : Node) (j : Nat) :
    node? ⟨g.nodes.setIfInBounds i node⟩ j = if i = j then some node else g.node? j := by
  have hin : i < g.nodes.size := hi
  simp only [node?, Array.getElem?_setIfInBounds, hin, if_true]

theorem size_push (g : Graph) (node : Node) : size ⟨g.nodes.push node⟩ = g.size + 1 :=
  Array.size_push node

theorem size_write (g : Graph) (i : Nat) (node : Node) :
    size ⟨g.nodes.setIfInBounds i node⟩ = g.size :=
  Array.size_setIfInBounds

theorem WellFormed.push (hg : g.WellFormed) {node : Node} (hnode : node.Fits g.size) :
    WellFormed ⟨g.nodes.push node⟩ := by
  intro i other hi
  rw [node?_push] at hi
  rw [size_push]
  split at hi
  · exact Option.some.inj hi ▸ hnode.mono (Nat.le_succ _)
  · exact (hg i other hi).mono (Nat.le_succ _)

theorem WellFormed.write (hg : g.WellFormed) {i : Nat} (hi : i < g.size) {node : Node}
    (hnode : node.Fits g.size) : WellFormed ⟨g.nodes.setIfInBounds i node⟩ := by
  intro j other hj
  rw [node?_write g hi] at hj
  rw [size_write]
  split at hj
  · exact Option.some.inj hj ▸ hnode
  · exact hg j other hj

/-- Every node that was there is still there and is still what it was. -/
def Grows (g h : Graph) : Prop :=
  ∀ i node, g.node? i = some node → ∃ grown, h.node? i = some grown ∧ node.Grows grown

theorem Grows.refl (g : Graph) : g.Grows g :=
  fun _ node hi => ⟨node, hi, .refl node⟩

theorem Grows.trans {k : Graph} (hgh : g.Grows h) (hhk : h.Grows k) : g.Grows k := by
  intro i node hi
  obtain ⟨grown, hgrown, hnode⟩ := hgh i node hi
  obtain ⟨last, hlast, hrest⟩ := hhk i grown hgrown
  exact ⟨last, hlast, hnode.trans hrest⟩

theorem grows_push (g : Graph) (node : Node) : g.Grows ⟨g.nodes.push node⟩ := by
  intro i other hi
  have hne : i ≠ g.size := Nat.ne_of_lt (lt_size_of_node? hi)
  exact ⟨other, by rw [node?_push, if_neg hne, hi], .refl other⟩

theorem grows_write {i : Nat} {node grown : Node} (hi : g.node? i = some node)
    (hgrows : node.Grows grown) : g.Grows ⟨g.nodes.setIfInBounds i grown⟩ := by
  intro j other hj
  rw [node?_write g (lt_size_of_node? hi)]
  by_cases hij : i = j
  · subst hij
    rw [if_pos rfl]
    exact ⟨grown, rfl, Option.some.inj (hi.symm.trans hj) ▸ hgrows⟩
  · rw [if_neg hij]
    exact ⟨other, hj, .refl other⟩

/-- One change keeps a graph well-formed. -/
theorem Makes.wellFormed {change : Change} {answer : Option Nat} (hg : g.WellFormed)
    (hmakes : g.Makes change answer h) : h.WellFormed := by
  cases hmakes with
  | leaf hscalar =>
    exact hg.push ⟨fun v hv => Node.leaf.inj hv ▸ hscalar, by simp [Node.children], by simp⟩
  | list => exact hg.push ⟨by simp, by simp [Node.children], by simp⟩
  | map => exact hg.push ⟨by simp, by simp [Node.children, Entries.values], by simp [Entries.keys]⟩
  | @push list child children hchild hlist =>
    refine hg.write (lt_size_of_node? hlist) ⟨by simp, fun i hi => ?_, by simp⟩
    rcases List.mem_append.1 hi with hi | hi
    · exact (hg list _ hlist).lt_size i hi
    · exact List.mem_singleton.1 hi ▸ hchild
  | @insert map child key entries hchild hmap hkey =>
    refine hg.write (lt_size_of_node? hmap) ⟨by simp, fun i hi => ?_, ?_⟩
    · rw [Node.children, Entries.values, List.map_append] at hi
      rcases List.mem_append.1 hi with hi | hi
      · exact (hg map _ hmap).lt_size i hi
      · exact List.mem_singleton.1 hi ▸ hchild
    · intro grown hgrown
      rw [← Node.map.inj hgrown, Entries.keys, List.map_append]
      refine List.nodup_append.2 ⟨hg.nodup_keys hmap, by simp, fun k hk last hlast => ?_⟩
      rintro rfl
      have hsame : k = key := List.mem_singleton.1 hlast
      exact hkey (hsame ▸ hk)

/-- One change leaves every node what it is. -/
theorem Makes.grows {change : Change} {answer : Option Nat} (hmakes : g.Makes change answer h) :
    g.Grows h := by
  cases hmakes with
  | leaf | list | map => exact g.grows_push _
  | push _ hlist => exact grows_write hlist (.list _ _)
  | insert _ hmap _ => exact grows_write hmap (.map _ _)

/-- Any number of changes keeps a graph well-formed and its nodes what they are. -/
theorem afterAll_spec (hg : g.WellFormed) (changes : List Change) :
    (g.afterAll changes).WellFormed ∧ g.Grows (g.afterAll changes) := by
  induction changes generalizing g with
  | nil => exact ⟨hg, .refl g⟩
  | cons change rest ih =>
    rw [afterAll, List.foldl_cons, ← afterAll]
    rcases g.after_cases change with ⟨answer, hmakes⟩ | hsame
    · have hrest := ih (hmakes.wellFormed hg)
      exact ⟨hrest.1, hmakes.grows.trans hrest.2⟩
    · rw [hsame]
      exact ih hg

theorem wellFormed_empty : WellFormed {} := by
  intro i node hi
  simp [node?] at hi

/-- A graph that was built by changes, made or refused. -/
theorem wellFormed_afterAll (changes : List Change) : (afterAll {} changes).WellFormed :=
  (afterAll_spec wellFormed_empty changes).1

/-! ## Graphs that are built by changes -/

/-- However a graph was built and whatever is done to it then: no reference leads out of it, no map
has a key twice and leaves are scalars; its nodes keep their indices and stay what they are; a
change that is refused has left it alone, and does the same as the function that answers a new
graph; and what is reported to be no node can only be the root. -/
theorem afterAll_sound (earlier later : List Change) :
    let g := afterAll {} earlier
    let h := g.afterAll later
    g.WellFormed ∧ g.Grows h ∧
    (∀ change, InPlace.perform change g = g.settle (g.apply change)) ∧
    (∀ change answer after, InPlace.perform change g = .ok answer after ↔
      g.Makes change answer after) ∧
    (∀ change violation after, InPlace.perform change g = .error violation after ↔
      g.Refuses change violation ∧ after = g) ∧
    ∀ limits root i, g.unfold limits root = .error (.dangling i) ↔ i = root ∧ g.size ≤ root := by
  intro g h
  have hg : g.WellFormed := wellFormed_afterAll earlier
  refine ⟨hg, (afterAll_spec hg later).2, fun change => perform_eq change g,
    fun _ _ _ => perform_eq_ok_iff, fun _ _ _ => perform_eq_error_iff, fun limits root i => ?_⟩
  constructor
  · exact fun hdangling => (fault_of_unfold hg hdangling).dangling_spec hg
  · rintro ⟨rfl, hroot⟩
    have hcount : ¬maxNodes < 0 + 1 := by decide
    exact congrArg (Except.map (·.1)) (unfoldFrom_of_none hcount (node?_eq_none hroot))

end Graph

end TreeReduction
