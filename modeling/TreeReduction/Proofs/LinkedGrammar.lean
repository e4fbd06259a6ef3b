import Mathlib.Data.List.Nodup
import Mathlib.Data.List.Perm.Subperm
import TreeReduction.Proofs.Respelling

set_option autoImplicit false

/-!
# The grammar of encodings

What is decoded is what was encoded and nothing else. `Linked.Encodes` says which maps encode a
container: the tagged chain of some items a sequence, that of pairs with different keys, in any
order, a dictionary. `Linked.view?_eq_some_iff` says that exactly these are decoded. A chain may as
well be put together from its end and tagged last (`Linked.encode_eq`).

Decoding can also go by looking up keys and counting them, without a word about where an entry
stands (`Linked.findView?`). In a tree whose maps are in order this accepts the same maps
(`Linked.findView?_eq_some_iff`), since a map that has all keys of another one and no more entries
is this one.
-/

namespace TreeReduction

/-- Entries in order that hold some others, and are no more, are these. -/
theorem Entries.Ordered.eq_of_subset {α : Type} {entries others : Entries α} (h : entries.Ordered)
    (ho : others.Ordered) (hlength : entries.length ≤ others.length) (hsubset : others ⊆ entries) :
    entries = others := by
  have hnodup : others.Nodup := List.Nodup.of_map _ ho.nodup_keys
  exact h.eq_of_perm ho ((List.subperm_of_subset hnodup hsubset).perm_of_length_le hlength).symm

namespace Linked

/-! ## Decoding by keys -/

/-- The head and the tail of a map that has no other keys. -/
def cut? : Value → Option (Value × Value)
  | .map entries =>
    if entries.length = 2 then do
      let head ← Entries.get? entries headKey
      let tail ← Entries.get? entries tailKey
      some (head, tail)
    else none
  | _ => none

theorem cut?_map_eq_some_iff {entries : List (String × Value)} {head tail : Value} :
    cut? (.map entries) = some (head, tail) ↔ entries.length = 2 ∧
      Entries.get? entries headKey = some head ∧ Entries.get? entries tailKey = some tail := by
  simp [cut?, Option.bind_eq_some_iff]

theorem sizeOf_lt_of_cut? {v head tail : Value} (h : cut? v = some (head, tail)) :
    sizeOf tail < sizeOf v := by
  cases v with
  | map entries =>
    obtain ⟨-, -, htail⟩ := cut?_map_eq_some_iff.1 h
    exact Value.sizeOf_lt_of_mem_map (Entries.mem_of_get? htail)
  | _ => simp [cut?] at h

/-- Takes the items of a chain to those before it, down to the `null` that closes it. -/
def gather? (before : List Value) : Value → Option (List Value)
  | .null => some before
  | cursor =>
    match _h : cut? cursor with
    | some (item, rest) => gather? (before ++ [item]) rest
    | none => none
  termination_by cursor => sizeOf cursor
  decreasing_by exact sizeOf_lt_of_cut? _h

/-- The key and the value of a chain of two. -/
def findPair? (item : Value) : Option (String × Value) :=
  match cut? item with
  | some (.str key, rest) =>
    match cut? rest with
    | some (value, .null) => some (key, value)
    | _ => none
  | _ => none

/-- Adds what a pair spells to entries if they do not have its key. -/
def enter? (entries : Entries Value) (item : Value) : Option (Entries Value) := do
  let (key, value) ← findPair? item
  if entries.contains key then none else some (entries.insert key value)

/-- The items of the chain that starts at a tagged map. -/
def findItems? (root : List (String × Value)) : Option (List Value) :=
  match root.length with
  | 1 => some []
  | 3 => do
    let first ← Entries.get? root headKey
    let rest ← Entries.get? root tailKey
    gather? [first] rest
  | _ => none

/-- The container that the entries of a map encode, by their keys. -/
def findView? (root : List (String × Value)) : Option View := do
  let tag ← (Entries.get? root typeKey).bind Value.text?
  if tag ≠ listTag ∧ tag ≠ dictTag then none
  else
    let items ← findItems? root
    if tag = listTag then some (.sequence items)
    else (items.foldlM enter? []).map .dictionary

/-! ## Encodings -/

/-- The chain of some items, put together from its end, with a tag on its first map. -/
def encode (tag : String) (items : List Value) : Value :=
  match items.foldr link .null with
  | .map first => .map (Entries.insert typeKey (.str tag) first)
  | _ => .map [(typeKey, .str tag)]

/-- The tag comes before the other keys of the first map. -/
theorem encode_eq (tag : String) (items : List Value) : encode tag items = tagged tag items := by
  have hchain : ∀ items, items.foldr link .null = chain items := by
    intro items
    induction items with
    | nil => rfl
    | cons item rest ih => rw [List.foldr_cons, ih, chain]
  rw [encode, hchain]
  cases items with
  | nil => rfl
  | cons item rest =>
    have hlt : typeKey < headKey := by decide
    simp only [chain, link, Entries.insert, if_pos hlt, tagged]

/-- A value encodes a container. -/
inductive Encodes : Value → View → Prop where
  | sequence (items : List Value) : Encodes (ofItems items) (.sequence items)
  | dictionary {pairs sorted : List (String × Value)} (hnodup : (Entries.keys pairs).Nodup)
      (hperm : sorted.Perm pairs) (hsorted : Entries.Ordered sorted) :
      Encodes (ofEntries pairs) (.dictionary sorted)

theorem encodes_sequence_iff {v : Value} {items : List Value} :
    Encodes v (.sequence items) ↔ v = ofItems items := by
  constructor
  · intro h
    cases h
    rfl
  · rintro rfl
    exact .sequence items

theorem encodes_dictionary_iff {v : Value} {sorted : List (String × Value)} :
    Encodes v (.dictionary sorted) ↔ ∃ pairs, v = ofEntries pairs ∧
      (Entries.keys pairs).Nodup ∧ sorted = Entries.ofList pairs := by
  constructor
  · intro h
    cases h with
    | dictionary hnodup hperm hsorted =>
      exact ⟨_, rfl, hnodup, (Entries.ofList_eq_of_perm hperm hsorted).symm⟩
  · rintro ⟨pairs, rfl, hnodup, rfl⟩
    exact .dictionary hnodup (Entries.ofList_perm hnodup) (Entries.ordered_ofList pairs)

theorem not_encodes_leaf (v : Value) : ¬Encodes v .leaf := by
  intro h
  cases h

/-! ## What is decoded -/

theorem items?_eq_some_iff {v : Value} {items : List Value} :
    items? v = some items ↔ v = chain items := by
  refine ⟨fun h => ?_, fun h => h ▸ items?_chain items⟩
  fun_induction items? v generalizing items with
  | case1 => rw [← Option.some.inj h, chain]
  | case2 hd item tl rest hkeys ih =>
    obtain ⟨its, hits, rfl⟩ := Option.map_eq_some_iff.1 h
    rw [ih hits, hkeys.1, hkeys.2, chain, link]
  | case3 | case4 => simp at h

theorem pair?_eq_some_iff {v value : Value} {key : String} :
    pair? v = some (key, value) ↔ v = pair key value := by
  refine ⟨fun h => ?_, fun h => h ▸ pair?_pair key value⟩
  unfold pair? at h
  split at h
  · split at h
    · rename_i hkeys
      obtain ⟨rfl, rfl⟩ := Prod.mk.inj (Option.some.inj h)
      obtain ⟨rfl, rfl, rfl, rfl⟩ := hkeys
      rfl
    · simp at h
  · simp at h

theorem mapM_pair?_eq_some_iff {items : List Value} {pairs : List (String × Value)} :
    items.mapM pair? = some pairs ↔ items = pairs.map fun p => pair p.1 p.2 := by
  refine ⟨fun h => ?_, fun h => h ▸ mapM_pair?_pair pairs⟩
  induction items generalizing pairs with
  | nil =>
    rw [List.mapM_nil] at h
    rw [← Option.some.inj h, List.map_nil]
  | cons item rest ih =>
    simp only [List.mapM_cons, Option.bind_eq_bind, Option.pure_def, Option.bind_eq_some_iff,
      Option.some.injEq] at h
    obtain ⟨⟨key, value⟩, hpair, others, hothers, rfl⟩ := h
    rw [pair?_eq_some_iff.1 hpair, ih hothers, List.map_cons]

theorem tagged?_eq_some_iff {entries : List (String × Value)} {tag : String} {items : List Value} :
    tagged? entries = some (tag, items) ↔ Value.map entries = tagged tag items := by
  constructor
  · intro h
    unfold tagged? at h
    split at h
    · split at h
      · rename_i hkey
        obtain ⟨rfl, rfl⟩ := Prod.mk.inj (Option.some.inj h)
        rw [hkey, tagged]
      · simp at h
    · split at h
      · rename_i hkeys
        obtain ⟨its, hits, he⟩ := Option.map_eq_some_iff.1 h
        obtain ⟨rfl, rfl⟩ := Prod.mk.inj he
        rw [items?_eq_some_iff.1 hits, hkeys.1, hkeys.2.1, hkeys.2.2, tagged]
      · simp at h
    · simp at h
  · intro h
    obtain ⟨others, hothers, htagged⟩ := tagged_eq tag items
    rw [← h, Value.map.injEq] at hothers
    exact hothers ▸ htagged

theorem entries?_eq_some_iff {items : List Value} {sorted : List (String × Value)} :
    entries? items = some sorted ↔ ∃ pairs, (items = pairs.map fun p => pair p.1 p.2) ∧
      (Entries.keys pairs).Nodup ∧ sorted = Entries.ofList pairs := by
  simp only [← mapM_pair?_eq_some_iff, entries?]
  constructor
  · intro h
    split at h
    · rename_i pairs hpairs
      split at h
      · rename_i hnodup
        exact ⟨pairs, hpairs, hnodup, (Option.some.inj h).symm⟩
      · simp at h
    · simp at h
  · rintro ⟨pairs, hpairs, hnodup, rfl⟩
    rw [hpairs]
    exact if_pos hnodup

/-- Exactly what encodes a container is decoded. -/
theorem view?_eq_some_iff {entries : List (String × Value)} {w : View} :
    view? entries = some w ↔ Encodes (.map entries) w := by
  constructor
  · intro h
    unfold view? at h
    split at h
    · rename_i tag items htagged
      rw [tagged?_eq_some_iff] at htagged
      split at h
      · rename_i htag
        rw [← Option.some.inj h, encodes_sequence_iff, htagged, htag, ofItems]
      · split at h
        · rename_i htag
          obtain ⟨sorted, hsorted, rfl⟩ := Option.map_eq_some_iff.1 h
          obtain ⟨pairs, rfl, hnodup, rfl⟩ := entries?_eq_some_iff.1 hsorted
          exact encodes_dictionary_iff.2 ⟨pairs, by rw [htagged, htag, ofEntries], hnodup, rfl⟩
        · simp at h
    · simp at h
  · intro h
    cases w with
    | leaf => exact absurd h (not_encodes_leaf _)
    | sequence items =>
      have htagged := tagged?_eq_some_iff.2 (encodes_sequence_iff.1 h)
      rw [view?, htagged]
      exact if_pos rfl
    | dictionary sorted =>
      obtain ⟨pairs, hentries, hnodup, rfl⟩ := encodes_dictionary_iff.1 h
      have htagged := tagged?_eq_some_iff.2 hentries
      have hne : dictTag ≠ listTag := by decide
      rw [view?, htagged]
      simp only [if_neg hne, if_true]
      rw [entries?_eq_some_iff.2 ⟨pairs, rfl, hnodup, rfl⟩, Option.map_some]

/-! ## What is found by keys -/

theorem ordered_link_keys (head tail : Value) :
    Entries.Ordered [(headKey, head), (tailKey, tail)] :=
  (Entries.pairwise_keys_iff _).1 (show [headKey, tailKey].Pairwise (· < ·) by decide)

/-- A map in order is cut exactly if it is a link. -/
theorem cut?_eq_some_iff {v head tail : Value} (hv : v.Ordered) :
    cut? v = some (head, tail) ↔ v = link head tail := by
  cases v with
  | map entries =>
    rw [cut?_map_eq_some_iff, link, Value.map.injEq]
    constructor
    · rintro ⟨hlength, hhead, htail⟩
      have hentries := ((Value.ordered_map_iff entries).1 hv).1
      refine hentries.eq_of_subset (ordered_link_keys head tail) (Nat.le_of_eq hlength) ?_
      exact List.cons_subset.2 ⟨Entries.mem_of_get? hhead,
        List.cons_subset.2 ⟨Entries.mem_of_get? htail, List.nil_subset _⟩⟩
    · rintro rfl
      exact ⟨rfl, rfl, rfl⟩
  | _ => simp [cut?, link]

theorem ordered_link_iff {head tail : Value} :
    (link head tail).Ordered ↔ head.Ordered ∧ tail.Ordered := by
  have hkeys := ordered_link_keys head tail
  rw [link, Value.ordered_map_iff]
  simp [hkeys]

/-- From a value in order exactly the items of a chain are gathered. -/
theorem gather?_eq_some_iff {cursor : Value} (hcursor : cursor.Ordered)
    {before items : List Value} :
    gather? before cursor = some items ↔
      ∃ after, items = before ++ after ∧ cursor = chain after := by
  fun_induction gather? before cursor with
  | case1 before =>
    constructor
    · intro h
      exact ⟨[], by rw [← Option.some.inj h, List.append_nil], rfl⟩
    · rintro ⟨after, rfl, hafter⟩
      cases after with
      | nil => rw [List.append_nil]
      | cons => simp [chain, link] at hafter
  | case2 before cursor hnull item rest hcut ih =>
    obtain rfl := (cut?_eq_some_iff hcursor).1 hcut
    rw [ih (ordered_link_iff.1 hcursor).2]
    constructor
    · rintro ⟨after, rfl, rfl⟩
      exact ⟨item :: after, by simp, rfl⟩
    · rintro ⟨after, rfl, hafter⟩
      cases after with
      | nil => simp [chain, link] at hafter
      | cons first after =>
        obtain ⟨rfl, rfl⟩ : item = first ∧ rest = chain after := by simpa [chain, link] using hafter
        exact ⟨after, by simp, rfl⟩
  | case3 before cursor hnull hcut =>
    refine iff_of_false (by simp) ?_
    rintro ⟨after, -, rfl⟩
    cases after with
    | nil => exact hnull rfl
    | cons item after =>
      rw [(cut?_eq_some_iff hcursor).2 rfl] at hcut
      simp at hcut

theorem findPair?_eq_some_iff {item value : Value} {key : String} (hitem : item.Ordered) :
    findPair? item = some (key, value) ↔ item = pair key value := by
  constructor
  · intro h
    unfold findPair? at h
    split at h
    · rename_i found rest hcut
      obtain rfl := (cut?_eq_some_iff hitem).1 hcut
      split at h
      · rename_i last hlast
        obtain ⟨rfl, rfl⟩ := Prod.mk.inj (Option.some.inj h)
        rw [(cut?_eq_some_iff (ordered_link_iff.1 hitem).2).1 hlast, pair]
      · simp at h
    · simp at h
  · rintro rfl
    rfl

theorem enter?_eq_some_iff {entries more : Entries Value} {item : Value} (hitem : item.Ordered) :
    enter? entries item = some more ↔ ∃ key value, item = pair key value ∧
      key ∉ entries.keys ∧ more = entries.insert key value := by
  constructor
  · intro h
    obtain ⟨⟨key, value⟩, hpair, h⟩ := Option.bind_eq_some_iff.1 h
    simp only [Entries.contains_eq_isSome, Entries.isSome_get?_iff] at h
    split at h
    · simp at h
    · rename_i hkey
      exact ⟨key, value, (findPair?_eq_some_iff hitem).1 hpair, hkey, (Option.some.inj h).symm⟩
  · rintro ⟨key, value, hpair, hkey, rfl⟩
    refine Option.bind_eq_some_iff.2 ⟨(key, value), (findPair?_eq_some_iff hitem).2 hpair, ?_⟩
    simp only [Entries.contains_eq_isSome, Entries.isSome_get?_iff]
    exact if_neg hkey

/-- Items are entered one by one exactly if they are pairs and no key is there before its pair. -/
theorem foldlM_enter?_eq_some_iff {items : List Value} (hitems : ∀ x ∈ items, x.Ordered)
    {entries sorted : Entries Value} :
    items.foldlM enter? entries = some sorted ↔ ∃ pairs, (items = pairs.map fun p => pair p.1 p.2) ∧
      (Entries.keys pairs).Nodup ∧ (∀ key ∈ Entries.keys pairs, key ∉ entries.keys) ∧
      sorted = pairs.foldl (fun es p => es.insert p.1 p.2) entries := by
  induction items generalizing entries with
  | nil =>
    rw [List.foldlM_nil]
    constructor
    · intro h
      exact ⟨[], rfl, List.nodup_nil, by simp [Entries.keys], (Option.some.inj h).symm⟩
    · rintro ⟨pairs, hpairs, -, -, rfl⟩
      rw [List.map_eq_nil_iff.1 hpairs.symm]
      rfl
  | cons item rest ih =>
    obtain ⟨hitem, hrest⟩ := List.forall_mem_cons.1 hitems
    rw [List.foldlM_cons]
    constructor
    · intro h
      obtain ⟨more, hmore, h⟩ := Option.bind_eq_some_iff.1 h
      obtain ⟨key, value, rfl, hkey, rfl⟩ := (enter?_eq_some_iff hitem).1 hmore
      obtain ⟨pairs, rfl, hnodup, hfresh, rfl⟩ := (ih hrest).1 h
      simp only [Entries.mem_keys_insert_iff, not_or] at hfresh
      refine ⟨(key, value) :: pairs, rfl, ?_, ?_, rfl⟩
      · exact List.nodup_cons.2 ⟨fun hmem => (hfresh key hmem).1 rfl, hnodup⟩
      · exact List.forall_mem_cons.2 ⟨hkey, fun k hk => (hfresh k hk).2⟩
    · rintro ⟨pairs, hpairs, hnodup, hfresh, rfl⟩
      obtain ⟨⟨key, value⟩, pairs, rfl, rfl, rfl⟩ := List.map_eq_cons_iff.1 hpairs.symm
      obtain ⟨hkey, hfresh⟩ := List.forall_mem_cons.1 hfresh
      obtain ⟨hne, hnodup⟩ := List.nodup_cons.1 hnodup
      refine Option.bind_eq_some_iff.2 ⟨_, (enter?_eq_some_iff hitem).2 ⟨_, _, rfl, hkey, rfl⟩, ?_⟩
      refine (ih hrest).2 ⟨pairs, rfl, hnodup, fun k hk => ?_, rfl⟩
      have hother : k ≠ key := by
        rintro rfl
        exact hne hk
      rw [Entries.mem_keys_insert_iff, not_or]
      exact ⟨hother, hfresh k hk⟩

theorem foldlM_enter?_nil {items : List Value} (hitems : ∀ x ∈ items, x.Ordered) :
    items.foldlM enter? [] = entries? items := by
  refine Option.ext fun sorted => ?_
  rw [foldlM_enter?_eq_some_iff hitems, entries?_eq_some_iff]
  simp [Entries.keys, Entries.ofList]

/-- A map in order with a tag has items exactly if it is the chain of these with the tag. -/
theorem findItems?_eq_some_iff {root : List (String × Value)} (hroot : (Value.map root).Ordered)
    {tag : String} (htag : Entries.get? root typeKey = some (.str tag)) {items : List Value} :
    findItems? root = some items ↔ Value.map root = tagged tag items := by
  have hordered := ((Value.ordered_map_iff root).1 hroot).1
  have hmem := Entries.mem_of_get? htag
  constructor
  · intro h
    unfold findItems? at h
    split at h
    · rename_i hlength
      rw [← Option.some.inj h, tagged, Value.map.injEq]
      refine hordered.eq_of_subset (List.pairwise_singleton _ _) (Nat.le_of_eq hlength) ?_
      exact List.cons_subset.2 ⟨hmem, List.nil_subset _⟩
    · rename_i hlength
      obtain ⟨first, hfirst, h⟩ := Option.bind_eq_some_iff.1 h
      obtain ⟨rest, hrest, h⟩ := Option.bind_eq_some_iff.1 h
      have hafter : rest.Ordered :=
        ((Value.ordered_map_iff root).1 hroot).2 _ (Entries.mem_of_get? hrest)
      obtain ⟨after, rfl, rfl⟩ := (gather?_eq_some_iff hafter).1 h
      rw [List.singleton_append, tagged, Value.map.injEq]
      refine hordered.eq_of_subset ?_ (Nat.le_of_eq hlength) ?_
      · exact (Entries.pairwise_keys_iff _).1
          (show [typeKey, headKey, tailKey].Pairwise (· < ·) by decide)
      · exact List.cons_subset.2 ⟨hmem, List.cons_subset.2 ⟨Entries.mem_of_get? hfirst,
          List.cons_subset.2 ⟨Entries.mem_of_get? hrest, List.nil_subset _⟩⟩⟩
    · simp at h
  · intro h
    cases items with
    | nil =>
      obtain rfl := Value.map.inj h
      rfl
    | cons item rest =>
      obtain rfl := Value.map.inj h
      have hchain : (chain rest).Ordered :=
        ((Value.ordered_map_iff _).1 hroot).2 (tailKey, chain rest) (by simp)
      exact (gather?_eq_some_iff hchain).2 ⟨rest, rfl, rfl⟩

theorem get?_typeKey_of_tagged {root : List (String × Value)} {tag : String} {items : List Value}
    (h : Value.map root = tagged tag items) : Entries.get? root typeKey = some (.str tag) := by
  cases items with
  | nil | cons =>
    obtain rfl := Value.map.inj h
    rfl

/-- The tag and the items of a map in order. -/
theorem findTagged_iff {root : List (String × Value)} (hroot : (Value.map root).Ordered)
    {tag : String} {items : List Value} :
    (Entries.get? root typeKey).bind Value.text? = some tag ∧ findItems? root = some items ↔
      Value.map root = tagged tag items := by
  constructor
  · rintro ⟨htext, hitems⟩
    obtain ⟨u, hu, htext⟩ := Option.bind_eq_some_iff.1 htext
    obtain rfl := Value.text?_eq_some_iff.1 htext
    exact (findItems?_eq_some_iff hroot hu).1 hitems
  · intro h
    have htag := get?_typeKey_of_tagged h
    exact ⟨by rw [htag]; rfl, (findItems?_eq_some_iff hroot htag).2 h⟩

/-- By keys the same is decoded, if the maps of the tree are in order. -/
theorem findView?_eq {root : List (String × Value)} (hroot : (Value.map root).Ordered) :
    findView? root = view? root := by
  rw [view?]
  cases htagged : tagged? root with
  | none =>
    refine Option.eq_none_iff_forall_ne_some.2 fun w hview => ?_
    obtain ⟨tag, htag, hview⟩ := Option.bind_eq_some_iff.1 hview
    split at hview
    · simp at hview
    · obtain ⟨items, hitems, -⟩ := Option.bind_eq_some_iff.1 hview
      have hsome := tagged?_eq_some_iff.2 ((findTagged_iff hroot).1 ⟨htag, hitems⟩)
      simp [htagged] at hsome
  | some r =>
    obtain ⟨tag, items⟩ := r
    obtain ⟨htag, hitems⟩ := (findTagged_iff hroot).2 (tagged?_eq_some_iff.1 htagged)
    have henter : items.foldlM enter? [] = entries? items :=
      foldlM_enter?_nil fun x hx => hroot.part (part_of_mem_tagged? htagged hx)
    simp only [findView?, htag, hitems, henter, Option.bind_eq_bind, Option.bind_some]
    by_cases hlist : tag = listTag
    · simp [hlist]
    · by_cases hdict : tag = dictTag
      · simp [hdict]
      · simp [hlist, hdict]

end Linked

namespace Value

/-- The name of the variable site that the entries of a map form, by their keys. -/
def findName? (entries : List (String × Value)) : Option String :=
  if entries.length = 1 then (Entries.get? entries variableKey).bind text? else none

/-- The container that a value spells, by the keys of its maps. -/
def findView : Value → View
  | .list items => .sequence items
  | .map entries => (Linked.findView? entries).getD (.dictionary entries)
  | _ => .leaf

/-- The shape of a value, by the keys of its maps. -/
def findShape : Value → Shape
  | .list _ => .list
  | .map entries =>
    match findName? entries, Linked.findView? entries with
    | some _, _ => .site
    | none, some (.sequence _) => .linkedList
    | none, some (.dictionary _) => .linkedDict
    | none, _ => .map
  | _ => .atom

theorem findName?_eq (entries : List (String × Value)) : findName? entries = siteName? entries := by
  unfold findName?
  split
  · rename_i hlength
    obtain ⟨⟨key, value⟩, rfl⟩ := List.length_eq_one_iff.1 hlength
    by_cases hkey : key = variableKey
    · cases value <;> simp [siteName?, Entries.get?_cons, hkey, text?]
    · cases value <;> simp [siteName?, Entries.get?_cons, hkey]
  · rename_i hlength
    unfold siteName?
    split
    · simp at hlength
    · rfl

theorem findView_eq {v : Value} (hv : v.Ordered) : v.findView = v.view := by
  cases v with
  | map entries => rw [findView, view, Linked.findView?_eq hv]
  | _ => rfl

theorem findShape_eq {v : Value} (hv : v.Ordered) : v.findShape = v.shape := by
  cases v with
  | map entries =>
    rw [findShape, findName?_eq, Linked.findView?_eq hv]
    rfl
  | _ => rfl

/-! ## Views and shapes of encodings -/

theorem exists_map_of_encodes {v : Value} {w : View} (h : Linked.Encodes v w) :
    ∃ entries, v = .map entries ∧ Linked.view? entries = some w := by
  have hmap : ∃ entries, v = .map entries := by
    cases h with
    | sequence items => exact (Linked.tagged_eq _ _).imp fun _ h => h.1
    | dictionary => exact (Linked.tagged_eq _ _).imp fun _ h => h.1
  obtain ⟨entries, rfl⟩ := hmap
  exact ⟨entries, rfl, Linked.view?_eq_some_iff.2 h⟩

theorem view_of_encodes {v : Value} {w : View} (h : Linked.Encodes v w) : v.view = w := by
  obtain ⟨entries, rfl, hview⟩ := exists_map_of_encodes h
  rw [view, hview, Option.getD_some]

theorem siteName?_of_tagged? {entries : List (String × Value)} {tag : String} {items : List Value}
    (h : Linked.tagged? entries = some (tag, items)) : siteName? entries = none := by
  have hname := Linked.variableName?_tagged tag items
  rwa [← Linked.tagged?_eq_some_iff.1 h] at hname

/-- What encodes a container is no variable site. -/
theorem siteName?_of_view? {entries : List (String × Value)} {w : View}
    (h : Linked.view? entries = some w) : siteName? entries = none := by
  obtain ⟨tag, items, htagged, -⟩ := Linked.tagged?_of_view? h
  exact siteName?_of_tagged? htagged

theorem shape_eq_linkedList_iff {v : Value} :
    v.shape = .linkedList ↔ ∃ items, Linked.Encodes v (.sequence items) := by
  constructor
  · intro h
    unfold shape at h
    split at h
    · simp at h
    · split at h
      · simp at h
      · rename_i items _ hview
        exact ⟨items, Linked.view?_eq_some_iff.1 hview⟩
      · simp at h
      · simp at h
    · simp at h
  · rintro ⟨items, h⟩
    obtain ⟨entries, rfl, hview⟩ := exists_map_of_encodes h
    simp only [shape, siteName?_of_view? hview, hview]

theorem shape_eq_linkedDict_iff {v : Value} :
    v.shape = .linkedDict ↔ ∃ entries, Linked.Encodes v (.dictionary entries) := by
  constructor
  · intro h
    unfold shape at h
    split at h
    · simp at h
    · split at h
      · simp at h
      · simp at h
      · rename_i entries _ hview
        exact ⟨entries, Linked.view?_eq_some_iff.1 hview⟩
      · simp at h
    · simp at h
  · rintro ⟨entries, h⟩
    obtain ⟨_, rfl, hview⟩ := exists_map_of_encodes h
    simp only [shape, siteName?_of_view? hview, hview]

/-- The shape of a value tells whether it is an encoding. It is that of a linked list for the tagged
chains of items alone, each of one list of items, which is what is seen. It is that of a linked map
for the tagged chains of pairs alone, in any order and with different keys, which are what is seen,
in order. Every other map is seen as it is. For a tree in order, looking up and counting keys comes
to the same. -/
theorem shape_linked_iff {v : Value} (hv : v.Ordered) :
    (v.shape = .linkedList ↔ ∃! items, v = Linked.ofItems items) ∧
    (∀ items, v = Linked.ofItems items → v.view = .sequence items) ∧
    (v.shape = .linkedDict ↔ ∃ pairs, (Entries.keys pairs).Nodup ∧ v = Linked.ofEntries pairs) ∧
    (∀ pairs, (Entries.keys pairs).Nodup → v = Linked.ofEntries pairs →
      ∃ sorted, sorted.Perm pairs ∧ Entries.Ordered sorted ∧ v.view = .dictionary sorted) ∧
    (∀ entries, v = .map entries → v.shape ≠ .linkedList → v.shape ≠ .linkedDict →
      v.view = .dictionary entries) ∧
    v.findShape = v.shape ∧ v.findView = v.view := by
  refine ⟨?_, fun items h => ?_, ?_, fun pairs hnodup h => ?_, fun entries h hlist hdict => ?_,
    findShape_eq hv, findView_eq hv⟩
  · simp only [shape_eq_linkedList_iff, Linked.encodes_sequence_iff]
    constructor
    · rintro ⟨items, h⟩
      refine ⟨items, h, fun others hothers => ?_⟩
      have hsame : View.sequence others = .sequence items := by
        rw [← view_ofItems, ← view_ofItems, ← h, hothers]
      exact View.sequence.inj hsame
    · rintro ⟨items, h, -⟩
      exact ⟨items, h⟩
  · exact view_of_encodes (Linked.encodes_sequence_iff.2 h)
  · simp only [shape_eq_linkedDict_iff, Linked.encodes_dictionary_iff]
    constructor
    · rintro ⟨sorted, pairs, h, hnodup, -⟩
      exact ⟨pairs, hnodup, h⟩
    · rintro ⟨pairs, hnodup, h⟩
      exact ⟨_, pairs, h, hnodup, rfl⟩
  · have hview := view_of_encodes (Linked.encodes_dictionary_iff.2 ⟨pairs, h, hnodup, rfl⟩)
    exact ⟨_, Entries.ofList_perm hnodup, Entries.ordered_ofList pairs, hview⟩
  · rw [Ne, shape_eq_linkedList_iff] at hlist
    rw [Ne, shape_eq_linkedDict_iff] at hdict
    subst h
    cases hview : Linked.view? entries with
    | none => rw [view, hview, Option.getD_none]
    | some w =>
      have hencodes := Linked.view?_eq_some_iff.1 hview
      cases w with
      | leaf => exact absurd hencodes (Linked.not_encodes_leaf _)
      | sequence items => exact absurd ⟨items, hencodes⟩ hlist
      | dictionary sorted => exact absurd ⟨sorted, hencodes⟩ hdict

/-- A linked map whose keys do not ascend. -/
def descending : Value :=
  Linked.ofEntries [("b", .null), ("a", .list [])]

/-- The same chain with one key twice. -/
def repeating : Value :=
  Linked.ofEntries [("b", .null), ("b", .list [])]

theorem shape_linked_iff_descending :
    descending.Ordered ∧ repeating.Ordered ∧
      descending.shape = .linkedDict ∧
      (∃ sorted, sorted.Perm [("b", .null), ("a", .list [])] ∧ Entries.Ordered sorted ∧
        descending.view = .dictionary sorted) ∧
      repeating.shape = .map ∧ ∀ entries, repeating = .map entries →
        repeating.view = .dictionary entries := by
  have hdescending : descending.Ordered := by decide
  have hrepeating : repeating.Ordered := by decide
  have hnodup : (Entries.keys [("b", Value.null), ("a", .list [])]).Nodup := by decide
  have hmap : repeating.shape = .map := rfl
  obtain ⟨-, -, hdict, hsorted, -⟩ := shape_linked_iff hdescending
  obtain ⟨-, -, -, -, hother, -⟩ := shape_linked_iff hrepeating
  refine ⟨hdescending, hrepeating, hdict.2 ⟨_, hnodup, rfl⟩, hsorted _ hnodup rfl, hmap, ?_⟩
  intro entries hentries
  exact hother entries hentries (by simp [hmap]) (by simp [hmap])

end Value

end TreeReduction
