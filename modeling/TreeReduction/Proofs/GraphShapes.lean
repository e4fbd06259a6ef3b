import TreeReduction.Proofs.GraphChains
import TreeReduction.Proofs.LinkedGrammar
import TreeReduction.Proofs.RespellingTwice

set_option autoImplicit false

/-!
# The shape of a node and of its tree

The shape of a node, told from the graph, is the shape of the tree that it stands for
(`Graph.Unfolds.shape_eq`). Whatever is looked at on the way there is the same in both: what a node
has under a key stands for what its tree has under that key (`Graph.Unfolds.child?`), and texts,
`null` and numbers of keys are the same. From this it follows piece by piece, each from the graph to
the tree and back: for links, for chains, for tagged maps and for pairs.

A node that stands for no tree has a shape, too. `Graph.shape_of_unfold` puts together what there is
to say about shapes in a graph that was built by changes.
-/

namespace TreeReduction.Graph

variable {g : Graph} {i : Nat} {v : Value}

/-! ## Looking at a node and at its tree -/

/-- What keys hold is found again when what they lead to stands for something else. -/
theorem get?_zip_of_forall₂ {α β : Type} {R : α → β → Prop} {entries : Entries α} {values : List β}
    (h : List.Forall₂ R entries.values values) (key : String) :
    Option.Rel R (entries.get? key) (Entries.get? (entries.keys.zip values) key) := by
  induction entries generalizing values with
  | nil => exact .none
  | cons p rest ih =>
    cases h with
    | cons hp hrest =>
      simp only [Entries.keys, List.map_cons, List.zip_cons_cons, Entries.get?_cons]
      split
      · exact .some hp
      · exact ih hrest

namespace Unfolds

/-- What a node has under a key stands for what its tree has there. -/
theorem child? (hg : g.WellFormed) (h : g.Unfolds i v) (key : String) :
    Option.Rel g.Unfolds (g.child? i key) (v.get? key) := by
  cases h with
  | leaf hi =>
    have hscalar := hg.isScalar hi
    cases v with
    | list | map => simp [Value.isScalar] at hscalar
    | _ =>
      rw [Graph.child?, hi]
      exact .none
  | list hi =>
    rw [Graph.child?, hi]
    exact .none
  | map hi hperm hsorted hvalues =>
    rw [child?_of_map hi, ← Entries.get?_of_perm (hg.nodup_keys hi) hperm]
    exact get?_zip_of_forall₂ hvalues key

theorem exists_child (hg : g.WellFormed) (h : g.Unfolds i v) {key : String} {u : Value}
    (hu : v.get? key = some u) : ∃ j, g.child? i key = some j ∧ g.Unfolds j u := by
  have hrel := h.child? hg key
  rw [hu] at hrel
  generalize g.child? i key = found at hrel ⊢
  cases hrel with
  | some hj => exact ⟨_, rfl, hj⟩

theorem exists_get? (hg : g.WellFormed) (h : g.Unfolds i v) {key : String} {j : Nat}
    (hj : g.child? i key = some j) : ∃ u, v.get? key = some u ∧ g.Unfolds j u := by
  have hrel := h.child? hg key
  rw [hj] at hrel
  generalize v.get? key = found at hrel ⊢
  cases hrel with
  | some hu => exact ⟨_, rfl, hu⟩

theorem text?_eq (h : g.Unfolds i v) : g.text? i = v.text? := by
  cases h with
  | leaf hi | list hi | map hi => rw [Graph.text?, hi] <;> rfl

theorem isNull_iff (h : g.Unfolds i v) : g.isNull i = true ↔ v = .null := by
  rw [Graph.isNull_iff]
  cases h with
  | leaf hi | list hi | map hi => simp [hi]

theorem keyCount?_eq_some_iff (hg : g.WellFormed) (h : g.Unfolds i v) {n : Nat} :
    g.keyCount? i = some n ↔ ∃ entries, v = .map entries ∧ entries.length = n := by
  rw [Graph.keyCount?_eq_some_iff]
  cases h with
  | leaf hi =>
    have hscalar := hg.isScalar hi
    cases v <;> simp_all [Value.isScalar]
  | list hi => simp [hi]
  | @map i entries sorted values hi hperm hsorted hvalues =>
    have hlength : ((Entries.keys sorted).zip values).length = entries.length := by
      have hvalues := hvalues.length_eq
      simp only [Entries.values, List.length_map] at hvalues
      simp [Entries.keys, ← hvalues, hperm.length_eq]
    simp [hi, hlength]

/-- The text under a key. -/
theorem bind_text?_eq (hg : g.WellFormed) (h : g.Unfolds i v) (key : String) :
    (g.child? i key).bind g.text? = (v.get? key).bind Value.text? := by
  have hrel := h.child? hg key
  generalize g.child? i key = found at hrel ⊢
  generalize v.get? key = seen at hrel ⊢
  cases hrel with
  | some hj => exact hj.text?_eq
  | none => rfl

/-- The tree of a node has its maps in order. -/
theorem ordered (hg : g.WellFormed) (h : g.Unfolds i v) : v.Ordered := by
  refine Unfolds.induct (motive := fun _ v => v.Ordered) ?_ ?_ h
  · intro i v hi
    have hscalar := hg.isScalar hi
    cases v <;> simp_all [Value.isScalar, Value.Ordered]
  · intro i node items hi hleaf hitems ih
    have hall : ∀ x ∈ items, x.Ordered := by
      intro x hx
      obtain ⟨_, -, hx⟩ := Value.exists_left_of_mem ih hx
      exact hx
    cases node with
    | leaf => simp [Node.isLeaf] at hleaf
    | list => exact (Value.ordered_list_iff items).2 hall
    | map entries =>
      have hkeys := Node.ordered_build hitems.length_eq.symm
      exact (Value.ordered_map_iff _).2 ⟨hkeys, fun p hp => hall p.2 (List.of_mem_zip hp).2⟩

/-! ## Links and chains -/

/-- A map of a head and a tail stands for a link. -/
theorem of_cut (hg : g.WellFormed) (h : g.Unfolds i v) {head tail : Nat}
    (hcut : g.Cut i head tail) :
    ∃ first rest, v = Linked.link first rest ∧ g.Unfolds head first ∧ g.Unfolds tail rest := by
  obtain ⟨entries, rfl, hlength⟩ := (h.keyCount?_eq_some_iff hg).1 hcut.keyCount
  obtain ⟨first, hfirst, hhead⟩ := h.exists_get? hg hcut.head
  obtain ⟨rest, hrest, htail⟩ := h.exists_get? hg hcut.tail
  have hfound := Linked.cut?_map_eq_some_iff.2 ⟨hlength, hfirst, hrest⟩
  exact ⟨first, rest, (Linked.cut?_eq_some_iff (h.ordered hg)).1 hfound, hhead, htail⟩

/-- What stands for a link is a map of a head and a tail. -/
theorem exists_cut (hg : g.WellFormed) {first rest : Value}
    (h : g.Unfolds i (Linked.link first rest)) :
    ∃ head tail, g.Cut i head tail ∧ g.Unfolds head first ∧ g.Unfolds tail rest := by
  obtain ⟨hlength, hfirst, hrest⟩ := Linked.cut?_map_eq_some_iff.1
    ((Linked.cut?_eq_some_iff (h.ordered hg)).2 rfl)
  obtain ⟨head, hhead, hfirst⟩ := h.exists_child hg hfirst
  obtain ⟨tail, htail, hrest⟩ := h.exists_child hg hrest
  have hcount := (h.keyCount?_eq_some_iff hg).2 ⟨_, rfl, hlength⟩
  exact ⟨head, tail, ⟨hcount, hhead, htail⟩, hfirst, hrest⟩

/-- Where a chain starts, the tree is the chain of the trees of its heads. -/
theorem of_chain (hg : g.WellFormed) {heads : List Nat} (hchain : g.Chain i heads)
    (h : g.Unfolds i v) :
    ∃ items, v = Linked.chain items ∧ List.Forall₂ g.Unfolds heads items := by
  induction hchain generalizing v with
  | nil hnull => exact ⟨[], h.isNull_iff.1 hnull, .nil⟩
  | cons hcut _ ih =>
    obtain ⟨first, rest, rfl, hfirst, hrest⟩ := h.of_cut hg hcut
    obtain ⟨items, rfl, hitems⟩ := ih hrest
    exact ⟨first :: items, rfl, .cons hfirst hitems⟩

/-- Where the tree is a chain, a chain of nodes starts. -/
theorem exists_chain (hg : g.WellFormed) {items : List Value}
    (h : g.Unfolds i (Linked.chain items)) :
    ∃ heads, g.Chain i heads ∧ List.Forall₂ g.Unfolds heads items := by
  induction items generalizing i with
  | nil => exact ⟨[], .nil (h.isNull_iff.2 rfl), .nil⟩
  | cons item rest ih =>
    obtain ⟨head, tail, hcut, hhead, htail⟩ := h.exists_cut hg
    obtain ⟨heads, hchain, hheads⟩ := ih htail
    exact ⟨head :: heads, .cons hcut hchain, .cons hhead hheads⟩

end Unfolds

/-! ## Tagged maps -/

/-- A map has a tag and a chain with some heads. -/
structure Tagged (g : Graph) (i : Nat) (tag : String) (heads : List Nat) : Prop where
  tag : (g.child? i Linked.typeKey).bind g.text? = some tag
  heads : ∃ count, g.keyCount? i = some count ∧ g.taggedHeads? i count = some heads

namespace Unfolds

/-- Where a tagged map stands, the tree is the tagged chain of the trees of its heads. -/
theorem of_tagged (hg : g.WellFormed) (h : g.Unfolds i v) {tag : String} {heads : List Nat}
    (htagged : g.Tagged i tag heads) :
    ∃ items, v = Linked.tagged tag items ∧ List.Forall₂ g.Unfolds heads items := by
  obtain ⟨htag, count, hcount, hheads⟩ := htagged
  obtain ⟨entries, rfl, hlength⟩ := (h.keyCount?_eq_some_iff hg).1 hcount
  rw [h.bind_text?_eq hg] at htag
  have hitems : ∃ items, Linked.findItems? entries = some items ∧
      List.Forall₂ g.Unfolds heads items := by
    unfold taggedHeads? at hheads
    split at hheads
    · obtain rfl := Option.some.inj hheads
      exact ⟨[], by simp [Linked.findItems?, hlength], .nil⟩
    · obtain ⟨head, tail, rest, hhead, htail, hchain, rfl⟩ := chainHeads?_eq_some_iff.1 hheads
      obtain ⟨first, hfirst, hhead⟩ := h.exists_get? hg hhead
      obtain ⟨after, hafter, htail⟩ := h.exists_get? hg htail
      have hordered := htail.ordered hg
      obtain ⟨items, rfl, hrest⟩ := htail.of_chain hg hchain
      have hgather : Linked.gather? [first] (Linked.chain items) = some (first :: items) :=
        (Linked.gather?_eq_some_iff hordered).2 ⟨items, rfl, rfl⟩
      simp only [Value.get?] at hfirst hafter
      exact ⟨first :: items, by simp [Linked.findItems?, hlength, hfirst, hafter, hgather],
        .cons hhead hrest⟩
    · simp at hheads
  obtain ⟨items, hitems, hall⟩ := hitems
  exact ⟨items, (Linked.findTagged_iff (h.ordered hg)).1 ⟨htag, hitems⟩, hall⟩

/-- Where the tree is a tagged chain, a tagged map stands. -/
theorem exists_tagged (hg : g.WellFormed) {tag : String} {items : List Value}
    (h : g.Unfolds i (Linked.tagged tag items)) :
    ∃ heads, g.Tagged i tag heads ∧ List.Forall₂ g.Unfolds heads items := by
  have htag := h.bind_text?_eq hg Linked.typeKey
  cases items with
  | nil =>
    have hcount := (h.keyCount?_eq_some_iff hg).2 ⟨_, rfl, rfl⟩
    exact ⟨[], ⟨htag, _, hcount, rfl⟩, .nil⟩
  | cons item rest =>
    have hcount := (h.keyCount?_eq_some_iff hg).2 ⟨_, rfl, rfl⟩
    have hitem : (Linked.tagged tag (item :: rest)).get? Linked.headKey = some item := rfl
    have hrest : (Linked.tagged tag (item :: rest)).get? Linked.tailKey =
        some (Linked.chain rest) := rfl
    obtain ⟨head, hhead, hitem⟩ := h.exists_child hg hitem
    obtain ⟨tail, htail, hrest⟩ := h.exists_child hg hrest
    obtain ⟨heads, hchain, hheads⟩ := hrest.exists_chain hg
    have hfound := chainHeads?_eq_some_iff.2 ⟨head, tail, heads, hhead, htail, hchain, rfl⟩
    exact ⟨head :: heads, ⟨htag, _, hcount, hfound⟩, .cons hitem hheads⟩

/-! ## Pairs -/

/-- The key that a node spells before its value is the one that its tree spells. -/
theorem pairKey?_eq (hg : g.WellFormed) (h : g.Unfolds i v) :
    g.pairKey? i = (Linked.pair? v).map (·.1) := by
  refine Option.ext fun key => ?_
  rw [pairKey?_eq_some_iff, Option.map_eq_some_iff]
  constructor
  · rintro ⟨head, rest, value, last, hi, hkey, hrest, hnull⟩
    obtain ⟨first, after, rfl, hfirst, hafter⟩ := h.of_cut hg hi
    obtain ⟨held, closing, rfl, -, hclosing⟩ := hafter.of_cut hg hrest
    rw [hfirst.text?_eq, Value.text?_eq_some_iff] at hkey
    rw [hkey, hclosing.isNull_iff.1 hnull]
    exact ⟨(key, held), Linked.pair?_pair key held, rfl⟩
  · rintro ⟨⟨key, value⟩, hpair, rfl⟩
    obtain rfl := Linked.pair?_eq_some_iff.1 hpair
    obtain ⟨head, rest, hi, hhead, hrest⟩ := h.exists_cut hg
    obtain ⟨held, last, hcut, -, hlast⟩ := hrest.exists_cut hg
    exact ⟨head, rest, held, last, hi, hhead.text?_eq, hcut, hlast.isNull_iff.2 rfl⟩

theorem mapM_pairKey?_eq (hg : g.WellFormed) {heads : List Nat} {items : List Value}
    (h : List.Forall₂ g.Unfolds heads items) :
    heads.mapM g.pairKey? = (items.mapM Linked.pair?).map Entries.keys := by
  induction h with
  | nil => rfl
  | @cons head item heads items hhead _ ih =>
    rw [List.mapM_cons, List.mapM_cons, ih, hhead.pairKey?_eq hg]
    cases Linked.pair? item with
    | none => rfl
    | some p => cases items.mapM Linked.pair? <;> rfl

/-! ## Shapes -/

/-- The shape of a tagged map of nodes is that of the tagged chain. -/
theorem taggedShape_eq (hg : g.WellFormed) {heads : List Nat} {items : List Value}
    (h : List.Forall₂ g.Unfolds heads items) {entries : List (String × Value)} {tag : String}
    (htagged : Linked.tagged? entries = some (tag, items)) :
    g.taggedShape tag heads = (Value.map entries).shape := by
  rw [Value.shape, Value.siteName?_of_tagged? htagged, Linked.view?, htagged, taggedShape,
    mapM_pairKey?_eq hg h]
  by_cases hlist : tag = Linked.listTag
  · simp [hlist]
  · by_cases hdict : tag = Linked.dictTag
    · simp only [if_neg hlist, if_pos hdict, Linked.entries?]
      cases items.mapM Linked.pair? with
      | none => rfl
      | some pairs =>
        have hkeys : pairs.map (·.1) = Entries.keys pairs := rfl
        simp only [Option.map_some, hkeys]
        split <;> rfl
    · simp [hlist, hdict]

/-- The shape of a map of nodes is that of the map which it stands for. -/
theorem mapShape_eq (hg : g.WellFormed) {entries : List (String × Value)}
    (h : g.Unfolds i (.map entries)) {count : Nat} (hcount : g.keyCount? i = some count) :
    g.mapShape i count = (Value.map entries).shape := by
  have hlength : entries.length = count := by
    obtain ⟨_, heq, hlength⟩ := (h.keyCount?_eq_some_iff hg).1 hcount
    exact Value.map.inj heq ▸ hlength
  have hsite : (count = 1 ∧ ((g.child? i Value.variableKey).bind g.text?).isSome = true) ↔
      (Value.siteName? entries).isSome = true := by
    rw [h.bind_text?_eq hg, ← Value.findName?_eq, Value.findName?, hlength]
    split
    · simp [*, Value.get?]
    · simp [*]
  rw [Graph.mapShape_eq]
  simp only [hsite]
  cases htagged : Linked.tagged? entries with
  | some r =>
    obtain ⟨tag, items⟩ := r
    have heq := Linked.tagged?_eq_some_iff.1 htagged
    obtain ⟨heads, ⟨htag, _, hcount', hheads⟩, hall⟩ := exists_tagged hg (heq ▸ h)
    obtain rfl := Option.some.inj (hcount.symm.trans hcount')
    rw [Value.siteName?_of_tagged? htagged, htag, hheads]
    exact taggedShape_eq hg hall htagged
  | none =>
    have hother : ∀ tag heads, ¬g.Tagged i tag heads := by
      intro tag heads hi
      obtain ⟨items, heq, -⟩ := h.of_tagged hg hi
      rw [Linked.tagged?_eq_some_iff.2 heq] at htagged
      simp at htagged
    rw [Value.shape, Linked.view?, htagged]
    cases Value.siteName? entries with
    | some name => rfl
    | none =>
      cases htag : (g.child? i Linked.typeKey).bind g.text? with
      | none => rfl
      | some tag =>
        cases hheads : g.taggedHeads? i count with
        | none => rfl
        | some heads => exact absurd ⟨htag, count, hcount, hheads⟩ (hother tag heads)

/-- A node has the shape of its tree. -/
theorem shape_eq (hg : g.WellFormed) (h : g.Unfolds i v) : g.shape i = v.shape := by
  cases h with
  | leaf hi => rw [shape, hi, Value.shape_of_isScalar (hg.isScalar hi)]
  | list hi => rw [shape, hi, Value.shape]
  | @map i entries sorted values hi hperm hsorted hvalues =>
    have hcount : g.keyCount? i = some entries.length :=
      Graph.keyCount?_eq_some_iff.2 ⟨entries, hi, rfl⟩
    rw [shape, hi]
    exact (Unfolds.map hi hperm hsorted hvalues).mapShape_eq hg hcount

end Unfolds

/-! ## Graphs that are built by changes -/

/-- In a graph that was built by changes, a node that unfolds has the shape of what it unfolds to,
however this is told. Every node has a shape, which is found with marks, none of which is missed;
and a map whose tails come back to one of them has that of an ordinary map. -/
theorem shape_of_unfold (changes : List Change) (root : Nat) :
    let g := afterAll {} changes
    (∀ limits v, g.unfold limits root = .ok v → g.shape root = v.shape ∧ v.findShape = v.shape) ∧
    g.markedShape root = .ok (g.shape root) ∧
    ((∃ i, Relation.ReflTransGen g.TailOf root i ∧ Relation.TransGen g.TailOf i i) →
      g.shape root = .map) := by
  intro g
  have hg : g.WellFormed := wellFormed_afterAll changes
  refine ⟨fun limits v hv => ?_, markedShape_eq g root,
    fun ⟨i, hi, hloop⟩ => shape_of_loops hi hloop⟩
  have hunfolds := ((unfold_eq_ok_iff hg limits root v).1 hv).1
  exact ⟨hunfolds.shape_eq hg, Value.findShape_eq (hunfolds.ordered hg)⟩

/-- A tagged chain with an item that is shared, and one whose second map is its own tail. -/
def sharedAndLooping : List Change :=
  [.leaf (.str "list"), .leaf .null,
    .map, .insert 2 "tail" 1, .insert 2 "head" 1,
    .map, .insert 3 "tail" 2, .insert 3 "head" 1, .insert 3 "_type" 0,
    .map, .insert 4 "tail" 4, .insert 4 "head" 1,
    .map, .insert 5 "tail" 4, .insert 5 "head" 1, .insert 5 "_type" 0]

theorem shape_of_unfold_looping :
    let g := afterAll {} sharedAndLooping
    g.unfold {} 3 = .ok (Linked.ofItems [.null, .null]) ∧ g.shape 3 = .linkedList ∧
    g.TailOf 5 4 ∧ g.TailOf 4 4 ∧ g.shape 5 = .map := by
  intro g
  have htree : g.unfold {} 3 = .ok (Linked.ofItems [.null, .null]) := rfl
  have hfirst : g.TailOf 5 4 := rfl
  have hsecond : g.TailOf 4 4 := rfl
  obtain ⟨hshape, -⟩ := shape_of_unfold sharedAndLooping 3
  obtain ⟨-, -, hloops⟩ := shape_of_unfold sharedAndLooping 5
  have hlist : g.shape 3 = .linkedList := (hshape {} _ htree).1.trans (Linked.shape_ofItems _)
  exact ⟨htree, hlist, hfirst, hsecond, hloops ⟨4, .single hfirst, .single hsecond⟩⟩

end TreeReduction.Graph
