import TreeReduction.Graph.Shape
import TreeReduction.Proofs.UnfoldingTasks

set_option autoImplicit false

/-!
# Chains in a graph

The chain that starts at a node of a graph, if one does, can be followed in two ways: up to some
number of maps, as `Graph.chainHeads?` does it, or with a mark on every map that was gone to, until
a marked one comes up. Both find the chains that there are (`Graph.Chain`) and no others.

The reason is the same for both. A chain that ends goes through each of its maps once, since the
chain that starts at a map is shorter than the one that starts at the map before. So it has no more
maps than the graph has nodes (`Graph.Chain.length_le`), and none of them comes back to itself over
tails (`Graph.Chain.not_loops`).
-/

namespace TreeReduction.Graph

variable {g : Graph} {i j : Nat}

/-! ## Looking at nodes -/

theorem keyCount?_eq_some_iff {n : Nat} :
    g.keyCount? i = some n ↔ ∃ entries, g.node? i = some (.map entries) ∧ entries.length = n := by
  unfold keyCount?
  split
  · rename_i entries hi
    simp [hi]
  · rename_i hother
    simpa using fun entries hi => absurd hi (hother entries)

theorem isNull_iff : g.isNull i = true ↔ g.node? i = some (.leaf .null) := by
  unfold isNull
  split
  · rename_i hi
    simp [hi]
  · rename_i hother
    simpa using hother

theorem child?_of_map {entries : List (String × Nat)} (hi : g.node? i = some (.map entries))
    (key : String) : g.child? i key = Entries.get? entries key := by
  rw [child?, hi, Entries.get?]

theorem child?_of_isNull (hi : g.isNull i = true) (key : String) : g.child? i key = none := by
  rw [child?, isNull_iff.1 hi]

theorem keyCount?_of_isNull (hi : g.isNull i = true) : g.keyCount? i = none := by
  rw [keyCount?, isNull_iff.1 hi]

/-! ## Chains -/

/-- A node is a map of a head and a tail and no other keys. -/
structure Cut (g : Graph) (i head tail : Nat) : Prop where
  keyCount : g.keyCount? i = some 2
  head : g.child? i Linked.headKey = some head
  tail : g.child? i Linked.tailKey = some tail

/-- The chain with some heads starts at a node. -/
inductive Chain (g : Graph) : Nat → List Nat → Prop where
  | nil {i : Nat} (hi : g.isNull i = true) : Chain g i []
  | cons {i head tail : Nat} {heads : List Nat} (hcut : g.Cut i head tail)
      (htail : Chain g tail heads) : Chain g i (head :: heads)

/-- The chain with some heads starts at a map, which may also have other keys. -/
def Heads (g : Graph) (i : Nat) (heads : List Nat) : Prop :=
  ∃ head tail rest, g.child? i Linked.headKey = some head ∧ g.child? i Linked.tailKey = some tail ∧
    g.Chain tail rest ∧ heads = head :: rest

/-- One node is the tail of another one. -/
def TailOf (g : Graph) (i j : Nat) : Prop :=
  g.child? i Linked.tailKey = some j

/-- At a map of two keys these are the same. -/
theorem chain_iff_heads (hi : g.keyCount? i = some 2) {heads : List Nat} :
    g.Chain i heads ↔ g.Heads i heads := by
  constructor
  · intro h
    cases h with
    | nil hnull => simp [keyCount?_of_isNull hnull] at hi
    | cons hcut htail => exact ⟨_, _, _, hcut.head, hcut.tail, htail, rfl⟩
  · rintro ⟨head, tail, rest, hhead, htail, hchain, rfl⟩
    exact .cons ⟨hi, hhead, htail⟩ hchain

theorem chain_of_isNull_iff (hi : g.isNull i = true) {heads : List Nat} :
    g.Chain i heads ↔ heads = [] := by
  constructor
  · intro h
    cases h with
    | nil => rfl
    | cons hcut =>
      have hcount := hcut.keyCount
      simp [keyCount?_of_isNull hi] at hcount
  · rintro rfl
    exact .nil hi

/-- No chain starts at a node that is neither `null` nor a map of two keys. -/
theorem not_chain (hnull : ¬g.isNull i = true) (hcount : ¬g.keyCount? i = some 2)
    (heads : List Nat) : ¬g.Chain i heads := by
  intro h
  cases h with
  | nil hi => exact hnull hi
  | cons hcut => exact hcount hcut.keyCount

namespace Chain

variable {heads others : List Nat}

/-- The chain that starts at a tail is shorter. -/
theorem exists_of_tailOf (h : g.Chain i heads) (hij : g.TailOf i j) :
    ∃ rest, g.Chain j rest ∧ rest.length < heads.length := by
  cases h with
  | nil hi => simp [TailOf, child?_of_isNull hi] at hij
  | cons hcut htail =>
    obtain rfl := Option.some.inj (hcut.tail.symm.trans hij)
    exact ⟨_, htail, Nat.lt_succ_self _⟩

theorem exists_of_reflTransGen (h : g.Chain i heads) (hij : Relation.ReflTransGen g.TailOf i j) :
    ∃ rest, g.Chain j rest ∧ rest.length ≤ heads.length := by
  induction hij with
  | refl => exact ⟨heads, h, Nat.le_refl _⟩
  | tail _ hlast ih =>
    obtain ⟨rest, hrest, hle⟩ := ih
    obtain ⟨last, hchain, hlt⟩ := hrest.exists_of_tailOf hlast
    exact ⟨last, hchain, Nat.le_of_lt (Nat.lt_of_lt_of_le hlt hle)⟩

/-- At most one chain starts at a node. -/
theorem unique (h : g.Chain i heads) (ho : g.Chain i others) : heads = others := by
  induction h generalizing others with
  | nil hi => exact ((chain_of_isNull_iff hi).1 ho).symm
  | cons hcut _ ih =>
    obtain ⟨head, tail, rest, hhead, htail, hrest, rfl⟩ := (chain_iff_heads hcut.keyCount).1 ho
    obtain rfl := Option.some.inj (hcut.tail.symm.trans htail)
    rw [Option.some.inj (hcut.head.symm.trans hhead), ih hrest]

/-- A node where a chain starts lies on no loop of tails. -/
theorem not_loops (h : g.Chain i heads) : ¬Relation.TransGen g.TailOf i i := by
  intro hloop
  obtain ⟨j, hij, hji⟩ := Relation.TransGen.head'_iff.1 hloop
  obtain ⟨rest, hrest, hlt⟩ := h.exists_of_tailOf hij
  obtain ⟨again, hagain, hle⟩ := hrest.exists_of_reflTransGen hji
  rw [hagain.unique h] at hle
  exact absurd hlt (Nat.not_lt.2 hle)

/-- A chain goes through as many nodes as it has heads, and through each once: the chains that start
at them have different lengths. -/
theorem exists_nodes (h : g.Chain i heads) :
    ∃ nodes : List Nat, nodes.length = heads.length ∧ nodes.Nodup ∧
      ∀ n ∈ nodes, n < g.size ∧ ∃ rest, g.Chain n rest ∧ rest.length ≤ heads.length := by
  induction h with
  | nil => exact ⟨[], rfl, List.nodup_nil, by simp⟩
  | @cons i head tail heads hcut htail ih =>
    obtain ⟨nodes, hlength, hnodup, hnodes⟩ := ih
    have hchain : g.Chain i (head :: heads) := .cons hcut htail
    obtain ⟨entries, hi, -⟩ := keyCount?_eq_some_iff.1 hcut.keyCount
    refine ⟨i :: nodes, by simp [hlength], List.nodup_cons.2 ⟨fun hmem => ?_, hnodup⟩,
      List.forall_mem_cons.2 ⟨⟨lt_size_of_node? hi, _, hchain, Nat.le_refl _⟩, fun n hn => ?_⟩⟩
    · obtain ⟨-, rest, hrest, hle⟩ := hnodes i hmem
      rw [hrest.unique hchain] at hle
      exact Nat.not_succ_le_self _ hle
    · obtain ⟨hlt, rest, hrest, hle⟩ := hnodes n hn
      exact ⟨hlt, rest, hrest, Nat.le_succ_of_le hle⟩

/-- A chain has no more heads than the graph has nodes. -/
theorem length_le (h : g.Chain i heads) : heads.length ≤ g.size := by
  obtain ⟨nodes, hlength, hnodup, hnodes⟩ := h.exists_nodes
  exact hlength ▸ length_le_size hnodup fun n hn => (hnodes n hn).1

end Chain

/-! ## Following a chain up to a number of maps -/

theorem chainHeads?_eq_some_iff_of_room (room : Nat) {heads : List Nat} :
    g.chainHeads? room i = some heads ↔ g.Heads i heads ∧ heads.length ≤ room := by
  induction room generalizing i heads with
  | zero =>
    refine iff_of_false (by simp [chainHeads?]) ?_
    rintro ⟨⟨head, tail, rest, -, -, -, rfl⟩, hlength⟩
    simp at hlength
  | succ room ih =>
    simp only [chainHeads?, Option.bind_eq_bind, Option.bind_eq_some_iff]
    constructor
    · rintro ⟨head, hhead, tail, htail, h⟩
      split at h
      · rename_i hnull
        rw [← Option.some.inj h]
        exact ⟨⟨head, tail, [], hhead, htail, .nil hnull, rfl⟩, by simp⟩
      · split at h
        · rename_i hcount
          obtain ⟨rest, hrest, rfl⟩ := Option.map_eq_some_iff.1 h
          obtain ⟨hheads, hlength⟩ := ih.1 hrest
          have hchain := (chain_iff_heads hcount).2 hheads
          exact ⟨⟨head, tail, rest, hhead, htail, hchain, rfl⟩, Nat.succ_le_succ hlength⟩
        · simp at h
    · rintro ⟨⟨head, tail, rest, hhead, htail, hchain, rfl⟩, hlength⟩
      refine ⟨head, hhead, tail, htail, ?_⟩
      cases hnull : g.isNull tail with
      | true => rw [(chain_of_isNull_iff hnull).1 hchain, if_pos rfl]
      | false =>
        have hcount : g.keyCount? tail = some 2 := by
          by_contra hcount
          exact not_chain (by simp [hnull]) hcount rest hchain
        rw [if_neg (by simp), if_pos hcount]
        refine Option.map_eq_some_iff.2 ⟨rest, ih.2 ⟨?_, Nat.le_of_succ_le_succ hlength⟩, rfl⟩
        exact (chain_iff_heads hcount).1 hchain

/-- With room for one more map than there are nodes, every chain is found. -/
theorem chainHeads?_eq_some_iff {heads : List Nat} :
    g.chainHeads? (g.size + 1) i = some heads ↔ g.Heads i heads := by
  rw [chainHeads?_eq_some_iff_of_room]
  refine and_iff_left_of_imp ?_
  rintro ⟨head, tail, rest, -, -, hchain, rfl⟩
  exact Nat.succ_le_succ hchain.length_le

/-! ## Following a chain with marks -/

/-- A new mark leaves fewer nodes without one. -/
theorem count_mark_lt {marks : Array Bool} (hi : marks[i]? = some false) :
    (marks.setIfInBounds i true).count false < marks.count false := by
  obtain ⟨hlt, hmark⟩ := Array.getElem?_eq_some_iff.1 hi
  have hpos : 0 < marks.count false := Array.count_pos_iff.2 (hmark ▸ Array.getElem_mem hlt)
  rw [Array.setIfInBounds_def, dif_pos hlt, Array.count_set, hmark]
  simpa using Nat.sub_lt hpos Nat.one_pos

/-- Takes the heads of a chain to those before it. A mark is put on each map that is gone to, and
none is gone to twice. -/
def markHeads (g : Graph) (marks : Array Bool) (i : Nat) (before : List Nat) :
    Except Mishap (Option (List Nat)) :=
  match g.child? i Linked.headKey, g.child? i Linked.tailKey with
  | some head, some tail =>
    if g.isNull tail then .ok (some (before ++ [head]))
    else if g.keyCount? tail ≠ some 2 then .ok none
    else
      match _h : marks[tail]? with
      | none => .error (.noMark tail)
      | some true => .ok none
      | some false => g.markHeads (marks.setIfInBounds tail true) tail (before ++ [head])
  | _, _ => .ok none
  termination_by marks.count false
  decreasing_by exact count_mark_lt _h

theorem heads_iff {head tail : Nat} (hhead : g.child? i Linked.headKey = some head)
    (htail : g.child? i Linked.tailKey = some tail) {heads : List Nat} :
    g.Heads i heads ↔ ∃ rest, g.Chain tail rest ∧ heads = head :: rest := by
  constructor
  · rintro ⟨head', tail', rest, hhead', htail', hchain, rfl⟩
    rw [Option.some.inj (hhead.symm.trans hhead'), Option.some.inj (htail.symm.trans htail')]
    exact ⟨rest, hchain, rfl⟩
  · rintro ⟨rest, hchain, rfl⟩
    exact ⟨head, tail, rest, hhead, htail, hchain, rfl⟩

/-- No chain starts at a marked tail of a node that all marked ones lead to: it lies on a loop. -/
theorem not_chain_of_marked {path : List Nat}
    (hpath : ∀ n ∈ path, Relation.ReflTransGen g.TailOf n i) (htail : g.TailOf i j) (hj : j ∈ path)
    (heads : List Nat) : ¬g.Chain j heads :=
  fun hchain => hchain.not_loops (.tail' (hpath j hj) htail)

/-- At a map that all marked nodes lead to over tails, the heads of its chain are found if a chain
starts there, and nothing is found if none does. No mark is missed. -/
theorem markHeads_spec {marks : Array Bool} {before path : List Nat} (hmarks : g.Marked marks path)
    (hpath : ∀ n ∈ path, Relation.ReflTransGen g.TailOf n i) :
    ∃ found, g.markHeads marks i before = .ok found ∧
      ∀ all, found = some all ↔ ∃ heads, g.Heads i heads ∧ all = before ++ heads := by
  -- nothing is found where no chain starts at the tail
  have hnone : ∀ {i head tail : Nat} {before : List Nat}, g.child? i Linked.headKey = some head →
      g.child? i Linked.tailKey = some tail → (∀ rest, ¬g.Chain tail rest) →
      ∃ found, (.ok none : Except Mishap (Option (List Nat))) = .ok found ∧
        ∀ all, found = some all ↔ ∃ heads, g.Heads i heads ∧ all = before ++ heads := by
    intro i head tail before hhead htail hchain
    refine ⟨none, rfl, fun all => iff_of_false (by simp) ?_⟩
    rintro ⟨heads, hheads, -⟩
    obtain ⟨rest, hrest, -⟩ := (heads_iff hhead htail).1 hheads
    exact hchain rest hrest
  fun_induction markHeads g marks i before generalizing path with
  | case1 marks i before head tail htail hhead hnull =>
    refine ⟨_, rfl, fun all => ?_⟩
    simp only [heads_iff hhead htail, chain_of_isNull_iff hnull, exists_eq_left, Option.some.injEq,
      eq_comm]
  | case2 marks i before head tail htail hhead hnull hcount =>
    exact hnone hhead htail (not_chain hnull hcount)
  | case3 marks i before head tail htail hhead hnull hcount hmark =>
    -- a map is a node, and every node has a mark
    obtain ⟨entries, htailNode, -⟩ := keyCount?_eq_some_iff.1 (Decidable.of_not_not hcount)
    simp [hmarks tail (lt_size_of_node? htailNode)] at hmark
  | case4 marks i before head tail htail hhead hnull hcount hmark =>
    obtain ⟨entries, htailNode, -⟩ := keyCount?_eq_some_iff.1 (Decidable.of_not_not hcount)
    have hmem : tail ∈ path := by simpa [hmarks tail (lt_size_of_node? htailNode)] using hmark
    exact hnone hhead htail (not_chain_of_marked hpath htail hmem)
  | case5 marks i before head tail htail hhead hnull hcount hmark ih =>
    have hpath' : ∀ n ∈ tail :: path, Relation.ReflTransGen g.TailOf n tail :=
      List.forall_mem_cons.2 ⟨.refl, fun n hn => (hpath n hn).tail htail⟩
    obtain ⟨found, hfound, hall⟩ := ih (hmarks.mark tail) hpath'
    refine ⟨found, hfound, fun all => (hall all).trans ?_⟩
    simp only [heads_iff hhead htail, chain_iff_heads (Decidable.of_not_not hcount)]
    constructor
    · rintro ⟨heads, hheads, rfl⟩
      exact ⟨head :: heads, ⟨heads, hheads, rfl⟩, by simp⟩
    · rintro ⟨_, ⟨heads, hheads, rfl⟩, rfl⟩
      exact ⟨heads, hheads, by simp⟩
  | case6 marks i before hother =>
    refine ⟨none, rfl, fun all => iff_of_false (by simp) ?_⟩
    rintro ⟨heads, ⟨head, tail, rest, hhead, htail, -⟩, -⟩
    exact hother head tail hhead htail

/-- With marks the same chains are found. -/
theorem markHeads_eq (g : Graph) (i : Nat) :
    g.markHeads (Array.replicate g.size false) i [] = .ok (g.chainHeads? (g.size + 1) i) := by
  have hspec : ∃ found, g.markHeads (Array.replicate g.size false) i [] = .ok found ∧
      ∀ all, found = some all ↔ ∃ heads, g.Heads i heads ∧ all = [] ++ heads :=
    markHeads_spec g.marked_replicate (by simp)
  obtain ⟨found, hfound, hall⟩ := hspec
  rw [hfound]
  refine congrArg Except.ok (Option.ext fun heads => ?_)
  rw [chainHeads?_eq_some_iff]
  simpa using hall heads

/-! ## Keys one by one -/

/-- Adds the key that a chain of two spells to others if it is not among them. -/
def enterKey? (g : Graph) (keys : List String) (i : Nat) : Option (List String) :=
  let rest := g.child? i Linked.tailKey
  let isPair := g.keyCount? i = some 2 ∧ rest.bind g.keyCount? = some 2 ∧
    (rest.bind (g.child? · Linked.headKey)).isSome ∧
    (rest.bind (g.child? · Linked.tailKey)).any g.isNull
  match (g.child? i Linked.headKey).bind g.text? with
  | some key => if isPair ∧ key ∉ keys then some (keys ++ [key]) else none
  | none => none

theorem pairKey?_eq_some_iff {key : String} :
    g.pairKey? i = some key ↔ ∃ head rest value last, g.Cut i head rest ∧ g.text? head = some key ∧
      g.Cut rest value last ∧ g.isNull last = true := by
  simp only [pairKey?, Option.bind_eq_bind, Option.bind_eq_some_iff]
  constructor
  · rintro ⟨head, hhead, found, hkey, rest, hrest, value, hvalue, last, hlast, h⟩
    split at h
    · rename_i hcounts
      obtain rfl := Option.some.inj h
      exact ⟨head, rest, value, last, ⟨hcounts.1, hhead, hrest⟩, hkey,
        ⟨hcounts.2.1, hvalue, hlast⟩, hcounts.2.2⟩
    · simp at h
  · rintro ⟨head, rest, value, last, hi, hkey, hrest, hlast⟩
    exact ⟨head, hi.head, key, hkey, rest, hi.tail, value, hrest.head, last, hrest.tail,
      if_pos ⟨hi.keyCount, hrest.keyCount, hlast⟩⟩

theorem enterKey?_eq_some_iff {keys more : List String} :
    g.enterKey? keys i = some more ↔
      ∃ key, g.pairKey? i = some key ∧ key ∉ keys ∧ more = keys ++ [key] := by
  simp only [pairKey?_eq_some_iff, enterKey?]
  constructor
  · intro h
    split at h
    · rename_i key hkey
      obtain ⟨head, hhead, htext⟩ := Option.bind_eq_some_iff.1 hkey
      split at h
      · rename_i hpair
        obtain ⟨⟨hcount, hrestCount, hvalue, hlast⟩, hnew⟩ := hpair
        obtain ⟨rest, hrest, hrestCount⟩ := Option.bind_eq_some_iff.1 hrestCount
        rw [hrest, Option.bind_some] at hvalue hlast
        obtain ⟨value, hvalue⟩ := Option.isSome_iff_exists.1 hvalue
        obtain ⟨last, hlast, hnull⟩ := (Option.any_eq_true _ _).1 hlast
        exact ⟨key, ⟨head, rest, value, last, ⟨hcount, hhead, hrest⟩, htext,
          ⟨hrestCount, hvalue, hlast⟩, hnull⟩, hnew, (Option.some.inj h).symm⟩
      · simp at h
    · simp at h
  · rintro ⟨key, ⟨head, rest, value, last, hi, htext, hrest, hnull⟩, hnew, rfl⟩
    simp [hi.keyCount, hi.head, hi.tail, htext, hrest.keyCount, hrest.head, hrest.tail, hnull, hnew]

/-- Keys are entered one by one exactly if all there are differ. -/
theorem foldlM_enterKey?_eq_some_iff {heads : List Nat} {keys all : List String}
    (hkeys : keys.Nodup) :
    heads.foldlM g.enterKey? keys = some all ↔
      ∃ more, heads.mapM g.pairKey? = some more ∧ (keys ++ more).Nodup ∧ all = keys ++ more := by
  induction heads generalizing keys with
  | nil =>
    simp [hkeys, eq_comm]
  | cons head rest ih =>
    simp only [List.foldlM_cons, List.mapM_cons, Option.bind_eq_bind, Option.bind_eq_some_iff,
      Option.pure_def, Option.some.injEq, enterKey?_eq_some_iff]
    constructor
    · rintro ⟨_, ⟨key, hkey, hnew, rfl⟩, h⟩
      have hnodup : (keys ++ [key]).Nodup := by
        refine List.nodup_append.2 ⟨hkeys, List.nodup_singleton key, fun k hk last hlast => ?_⟩
        rintro rfl
        exact hnew (List.mem_singleton.1 hlast ▸ hk)
      obtain ⟨more, hmore, hall, rfl⟩ := (ih hnodup).1 h
      exact ⟨key :: more, ⟨key, hkey, more, hmore, rfl⟩, by simpa using hall, by simp⟩
    · rintro ⟨_, ⟨key, hkey, more, hmore, rfl⟩, hall, rfl⟩
      rw [List.append_cons] at hall
      have hnodup : (keys ++ [key]).Nodup := (List.nodup_append.1 hall).1
      have hnew : key ∉ keys := fun hmem =>
        (List.nodup_append.1 hnodup).2.2 key hmem key (by simp) rfl
      exact ⟨_, ⟨key, hkey, hnew, rfl⟩, (ih hnodup).2 ⟨more, hmore, hall, by simp⟩⟩

/-! ## Shapes with marks -/

/-- The heads of the chain of a tagged map of `count` keys. -/
def taggedHeads? (g : Graph) (i count : Nat) : Option (List Nat) :=
  match count with
  | 1 => some []
  | 3 => g.chainHeads? (g.size + 1) i
  | _ => none

/-- The heads of the chain of a tagged map of `count` keys, found with marks. -/
def markedHeads (g : Graph) (i count : Nat) : Except Mishap (Option (List Nat)) :=
  match count with
  | 1 => .ok (some [])
  | 3 => g.markHeads (Array.replicate g.size false) i []
  | _ => .ok none

/-- The shape of a node, told with marks. -/
def markedShape (g : Graph) (i : Nat) : Except Mishap Shape :=
  match g.node? i with
  | none | some (.leaf _) => .ok .atom
  | some (.list _) => .ok .list
  | some (.map entries) =>
    if entries.length = 1 ∧ ((g.child? i Value.variableKey).bind g.text?).isSome then .ok .site
    else
      match (g.child? i Linked.typeKey).bind g.text? with
      | none => .ok .map
      | some tag =>
        if tag ≠ Linked.listTag ∧ tag ≠ Linked.dictTag then .ok .map
        else
          (g.markedHeads i entries.length).map fun
            | none => .map
            | some heads =>
              if tag = Linked.listTag then .linkedList
              else if (heads.foldlM g.enterKey? []).isSome then .linkedDict
              else .map

theorem markedHeads_eq (g : Graph) (i count : Nat) :
    g.markedHeads i count = .ok (g.taggedHeads? i count) := by
  unfold markedHeads taggedHeads?
  split
  · rfl
  · exact g.markHeads_eq i
  · rfl

/-- The shape of a map that is no variable site comes from its tag and the heads of its chain. -/
theorem mapShape_eq (g : Graph) (i count : Nat) :
    g.mapShape i count =
      if count = 1 ∧ ((g.child? i Value.variableKey).bind g.text?).isSome then .site
      else
        match (g.child? i Linked.typeKey).bind g.text?, g.taggedHeads? i count with
        | some tag, some heads => g.taggedShape tag heads
        | _, _ => .map := by
  unfold mapShape taggedHeads?
  cases (g.child? i Linked.typeKey).bind g.text? with
  | none => rfl
  | some tag =>
    split
    · rfl
    · rcases count with _ | _ | _ | _ | _
      · rfl
      · rfl
      · rfl
      · cases g.chainHeads? (g.size + 1) i <;> rfl
      · rfl

theorem taggedShape_of_unknown {tag : String} (htag : tag ≠ Linked.listTag ∧ tag ≠ Linked.dictTag)
    (heads : List Nat) : g.taggedShape tag heads = .map := by
  rw [taggedShape, if_neg htag.1, if_neg htag.2]

/-- Keys that are entered one by one tell the same about the heads of a tagged map. -/
theorem taggedShape_of_known {tag : String} (htag : ¬(tag ≠ Linked.listTag ∧ tag ≠ Linked.dictTag))
    (heads : List Nat) :
    g.taggedShape tag heads =
      if tag = Linked.listTag then .linkedList
      else if (heads.foldlM g.enterKey? []).isSome then .linkedDict
      else .map := by
  rw [taggedShape]
  by_cases hlist : tag = Linked.listTag
  · rw [if_pos hlist, if_pos hlist]
  · have hdict : tag = Linked.dictTag := Decidable.of_not_not fun hdict => htag ⟨hlist, hdict⟩
    have hsome : (heads.foldlM g.enterKey? []).isSome = true ↔
        ∃ keys, heads.mapM g.pairKey? = some keys ∧ keys.Nodup := by
      simp [Option.isSome_iff_exists, foldlM_enterKey?_eq_some_iff]
    rw [if_neg hlist, if_pos hdict, if_neg hlist]
    simp only [hsome]
    cases heads.mapM g.pairKey? with
    | none => simp
    | some keys => simp

/-- With marks the same shapes are told. Whatever is looked at is there. -/
theorem markedShape_eq (g : Graph) (i : Nat) : g.markedShape i = .ok (g.shape i) := by
  rw [markedShape, shape]
  cases hi : g.node? i with
  | none => rfl
  | some node =>
    cases node with
    | leaf | list => rfl
    | map entries =>
      simp only [mapShape_eq, markedHeads_eq]
      split
      · rfl
      · cases (g.child? i Linked.typeKey).bind g.text? with
        | none => rfl
        | some tag =>
          simp only
          split
          · rename_i htag
            cases g.taggedHeads? i entries.length with
            | none => rfl
            | some heads => simp only [taggedShape_of_unknown htag]
          · rename_i htag
            simp only [← taggedShape_of_known htag]
            cases g.taggedHeads? i entries.length <;> rfl

/-! ## Chains that come back -/

/-- A map of one key has no child under any other. -/
theorem child?_of_single {entries : List (String × Nat)} (hi : g.node? i = some (.map entries))
    (hlength : entries.length = 1) {key other : String} (hother : g.child? i other = some j)
    (hne : other ≠ key) : g.child? i key = none := by
  obtain ⟨p, rfl⟩ := List.length_eq_one_iff.1 hlength
  rw [child?_of_map hi, Entries.get?_cons] at hother ⊢
  have hp : p.1 = other := by
    by_contra hp
    simp [hp] at hother
  simp [hp, hne]

/-- A map whose tails come back to one of them is an ordinary map. -/
theorem shape_of_loops (hij : Relation.ReflTransGen g.TailOf i j)
    (hloop : Relation.TransGen g.TailOf j j) : g.shape i = .map := by
  obtain ⟨tail, htail, hback⟩ :=
    Relation.TransGen.head'_iff.1 (Relation.TransGen.trans_right hij hloop)
  have hheads : ∀ heads, ¬g.Heads i heads := by
    rintro heads ⟨head, other, rest, -, hother, hchain, -⟩
    obtain rfl := Option.some.inj (htail.symm.trans hother)
    obtain ⟨last, hlast, -⟩ := hchain.exists_of_reflTransGen hback
    exact hlast.not_loops hloop
  have hmap : ∃ entries, g.node? i = some (.map entries) := by
    unfold TailOf child? at htail
    split at htail
    · exact ⟨_, by assumption⟩
    · simp at htail
  obtain ⟨entries, hi⟩ := hmap
  have hsingle : entries.length = 1 → ∀ key, Linked.tailKey ≠ key → g.child? i key = none :=
    fun hlength key hne => child?_of_single hi hlength htail hne
  rw [shape, hi]
  simp only [mapShape_eq]
  split
  · rename_i hsite
    rw [hsingle hsite.1 Value.variableKey (by decide)] at hsite
    simp at hsite
  · cases htag : (g.child? i Linked.typeKey).bind g.text? with
    | none => rfl
    | some tag =>
      cases hfound : g.taggedHeads? i entries.length with
      | none => rfl
      | some heads =>
        unfold taggedHeads? at hfound
        split at hfound
        · rename_i hlength
          rw [hsingle hlength Linked.typeKey (by decide)] at htag
          simp at htag
        · exact absurd (chainHeads?_eq_some_iff.1 hfound) (hheads heads)
        · simp at hfound

end TreeReduction.Graph
