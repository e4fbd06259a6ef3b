import TreeReduction.Value.Limits

set_option autoImplicit false

/-!
# Linked encodings

A list or map may also be spelled as a chain of maps with the keys `head` and `tail`, closed by
`null`. What makes a chain an encoding is the tag `_type` on its first map, `list` or `dict`; a
chain without it is an ordinary map. The items of a `dict` are chains of two, a key and its value,
with no key twice. An empty encoding is the tag alone.

`Value.view` sees a container through either spelling, `Value.shape` names what it sees, and
`Value.toLinked` and `Value.toNative` respell a whole tree. Variable sites are never respelled.
-/

namespace TreeReduction

namespace Linked

/-- The key of the tag. -/
def typeKey : String := "_type"

/-- The key of a first item. -/
def headKey : String := "head"

/-- The key of the items after it. -/
def tailKey : String := "tail"

/-- The tag of a list. -/
def listTag : String := "list"

/-- The tag of a map. -/
def dictTag : String := "dict"

/-! ## Encoding -/

/-- A map of a first item and the chain after it. -/
def link (head tail : Value) : Value :=
  .map [(headKey, head), (tailKey, tail)]

/-- The chain of some items. -/
def chain : List Value → Value
  | [] => .null
  | item :: rest => link item (chain rest)

/-- The chain of some items with a tag on its first map. -/
def tagged (tag : String) : List Value → Value
  | [] => .map [(typeKey, .str tag)]
  | item :: rest => .map [(typeKey, .str tag), (headKey, item), (tailKey, chain rest)]

/-- A list as a chain. -/
def ofItems (items : List Value) : Value :=
  tagged listTag items

/-- An entry of a map as a chain of its key and value. -/
def pair (key : String) (value : Value) : Value :=
  link (.str key) (link value .null)

/-- A map as a chain. -/
def ofEntries (entries : List (String × Value)) : Value :=
  tagged dictTag (entries.map fun p => pair p.1 p.2)

/-! ## Decoding -/

/-- The items of a chain. -/
def items? : Value → Option (List Value)
  | .null => some []
  | .map [(h, item), (t, rest)] =>
    if h = headKey ∧ t = tailKey then (items? rest).map (item :: ·) else none
  | _ => none

/-- The key and value of a chain of two. -/
def pair? : Value → Option (String × Value)
  | .map [(h, .str key), (t, .map [(h', value), (t', .null)])] =>
    if h = headKey ∧ t = tailKey ∧ h' = headKey ∧ t' = tailKey then some (key, value) else none
  | _ => none

/-- The entries that the items of a map's chain spell, if no key is spelled twice. -/
def entries? (items : List Value) : Option (List (String × Value)) :=
  match items.mapM pair? with
  | some pairs => if (pairs.map (·.1)).Nodup then some (Entries.ofList pairs) else none
  | none => none

/-- The tag and the items that the entries of a tagged map spell. -/
def tagged? : List (String × Value) → Option (String × List Value)
  | [(k, .str tag)] => if k = typeKey then some (tag, []) else none
  | [(k, .str tag), (h, item), (t, rest)] =>
    if k = typeKey ∧ h = headKey ∧ t = tailKey then
      (items? rest).map fun items => (tag, item :: items)
    else none
  | _ => none

end Linked

/-- A value as a container, whichever way it is spelled. -/
inductive View where
  | leaf
  | sequence (items : List Value)
  | dictionary (entries : List (String × Value))

/-- What a value is, with its spelling. -/
inductive Shape where
  | atom
  | site
  | list
  | map
  | linkedList
  | linkedDict
  deriving DecidableEq

/-- Whether a shape is that of a list in either spelling. -/
def Shape.isSequence : Shape → Bool
  | .list | .linkedList => true
  | _ => false

namespace Linked

/-- The container that the entries of a map encode, if they encode one. -/
def view? (entries : List (String × Value)) : Option View :=
  match tagged? entries with
  | some (tag, items) =>
    if tag = listTag then some (.sequence items)
    else if tag = dictTag then (entries? items).map .dictionary
    else none
  | none => none

end Linked

namespace Value

/-- The container that a value spells. A variable site is a map here like any other. -/
def view : Value → View
  | .list items => .sequence items
  | .map entries => (Linked.view? entries).getD (.dictionary entries)
  | _ => .leaf

/-- The shape of a value. -/
def shape : Value → Shape
  | .list _ => .list
  | .map entries =>
    match siteName? entries, Linked.view? entries with
    | some _, _ => .site
    | none, some (.sequence _) => .linkedList
    | none, some (.dictionary _) => .linkedDict
    | none, _ => .map
  | _ => .atom

end Value

/-! ## Decoded parts are smaller -/

namespace Linked

theorem sizeOf_lt_of_mem_items? {v : Value} {items : List Value} (h : items? v = some items)
    {x : Value} (hx : x ∈ items) : sizeOf x < sizeOf v := by
  fun_induction items? v generalizing items with
  | case1 => simp only [Option.some.injEq] at h; subst h; simp at hx
  | case2 hd item tl rest hk ih =>
    obtain ⟨its, hi, rfl⟩ := Option.map_eq_some_iff.1 h
    rcases List.mem_cons.1 hx with rfl | hx
    · simp; omega
    · have := ih hi hx
      simp; omega
  | case3 => simp at h
  | case4 => simp at h

theorem sizeOf_lt_of_pair? {v : Value} {p : String × Value} (h : pair? v = some p) :
    sizeOf p.2 < sizeOf v := by
  unfold pair? at h
  split at h
  · split at h
    · simp only [Option.some.injEq] at h; subst h; simp; omega
    · simp at h
  · simp at h

/-- What a successful map over options holds comes from one of the arguments. -/
theorem exists_of_mem_mapM {α β : Type} {f : α → Option β} :
    ∀ {xs : List α} {ys : List β}, xs.mapM f = some ys → ∀ {y : β}, y ∈ ys → ∃ x ∈ xs, f x = some y
  | [], ys, h, y, hy => by
    simp only [List.mapM_nil, Option.pure_def, Option.some.injEq] at h
    simp [← h] at hy
  | x :: xs, ys, h, y, hy => by
    simp only [List.mapM_cons, Option.bind_eq_bind, Option.pure_def, Option.bind_eq_some_iff,
      Option.some.injEq] at h
    obtain ⟨z, hz, zs, hzs, rfl⟩ := h
    rcases List.mem_cons.1 hy with rfl | hy
    · exact ⟨x, by simp, hz⟩
    · obtain ⟨w, hw, hwy⟩ := exists_of_mem_mapM hzs hy
      exact ⟨w, by simp [hw], hwy⟩

theorem sizeOf_lt_of_mem_tagged? {entries : List (String × Value)} {tag : String}
    {items : List Value} (h : tagged? entries = some (tag, items)) {x : Value} (hx : x ∈ items) :
    sizeOf x < sizeOf (Value.map entries) := by
  unfold tagged? at h
  split at h
  · split at h
    · simp only [Option.some.injEq, Prod.mk.injEq] at h; simp [← h.2] at hx
    · simp at h
  · split at h
    · obtain ⟨its, hi, he⟩ := Option.map_eq_some_iff.1 h
      simp only [Prod.mk.injEq] at he
      rw [← he.2] at hx
      rcases List.mem_cons.1 hx with rfl | hx
      · simp; omega
      · have := sizeOf_lt_of_mem_items? hi hx
        simp; omega
    · simp at h
  · simp at h

end Linked

namespace Value

theorem sizeOf_lt_of_mem_list {items : List Value} {x : Value} (hx : x ∈ items) :
    sizeOf x < sizeOf (Value.list items) := by
  have := List.sizeOf_lt_of_mem hx
  simp; omega

theorem sizeOf_lt_of_mem_map {entries : List (String × Value)} {p : String × Value}
    (hp : p ∈ entries) : sizeOf p.2 < sizeOf (Value.map entries) := by
  have := List.sizeOf_lt_of_mem hp
  obtain ⟨k, v⟩ := p
  simp at *; omega

/-- The items of a view are smaller than the value seen. -/
theorem sizeOf_lt_of_mem_sequence {v : Value} {items : List Value} (h : v.view = .sequence items)
    {x : Value} (hx : x ∈ items) : sizeOf x < sizeOf v := by
  cases v with
  | list its =>
    simp only [view, View.sequence.injEq] at h
    subst h
    exact sizeOf_lt_of_mem_list hx
  | map entries =>
    simp only [view, Linked.view?] at h
    split at h
    · rename_i tag its ht
      split at h
      · simp only [Option.getD_some, View.sequence.injEq] at h
        subst h
        exact Linked.sizeOf_lt_of_mem_tagged? ht hx
      · split at h
        · cases he : Linked.entries? its <;> simp [he] at h
        · simp at h
    · simp at h
  | _ => simp [view] at h

/-- The entries of a view are smaller than the value seen. -/
theorem sizeOf_lt_of_mem_dictionary {v : Value} {entries : List (String × Value)}
    (h : v.view = .dictionary entries) {p : String × Value} (hp : p ∈ entries) :
    sizeOf p.2 < sizeOf v := by
  cases v with
  | map es =>
    simp only [view, Linked.view?] at h
    split at h
    · rename_i tag its ht
      split at h
      · simp at h
      · split at h
        · cases he : Linked.entries? its with
          | none =>
            simp only [he, Option.map_none, Option.getD_none, View.dictionary.injEq] at h
            subst h
            exact sizeOf_lt_of_mem_map hp
          | some es' =>
            simp only [he, Option.map_some, Option.getD_some, View.dictionary.injEq] at h
            subst h
            unfold Linked.entries? at he
            split at he
            · rename_i pairs hm
              split at he
              · simp only [Option.some.injEq] at he
                subst he
                have hp' := Entries.mem_of_mem_ofList hp
                obtain ⟨x, hx, hxp⟩ := Linked.exists_of_mem_mapM hm hp'
                have h1 := Linked.sizeOf_lt_of_pair? hxp
                have h2 := Linked.sizeOf_lt_of_mem_tagged? ht hx
                omega
              · simp at he
            · simp at he
        · simp only [Option.getD_none, View.dictionary.injEq] at h
          subst h
          exact sizeOf_lt_of_mem_map hp
    · simp only [Option.getD_none, View.dictionary.injEq] at h
      subst h
      exact sizeOf_lt_of_mem_map hp
  | _ => simp [view] at h

/-! ## Respelling -/

/-- Respells every list and map of a tree, inner ones first. Scalars and variable sites stay. -/
def respell (ofItems : List Value → Value) (ofEntries : List (String × Value) → Value)
    (v : Value) : Value :=
  match v.variableName? with
  | some _ => v
  | none =>
    match _seen : v.view with
    | .leaf => v
    | .sequence items =>
      ofItems (items.attach.map fun ⟨x, _⟩ => respell ofItems ofEntries x)
    | .dictionary entries =>
      ofEntries (entries.attach.map fun ⟨p, _⟩ => (p.1, respell ofItems ofEntries p.2))
  termination_by sizeOf v
  decreasing_by
    · exact sizeOf_lt_of_mem_sequence (by assumption) (by assumption)
    · exact sizeOf_lt_of_mem_dictionary (by assumption) (by assumption)

/-- The tree with every list and map as a chain. -/
def toLinked (v : Value) : Value :=
  v.respell Linked.ofItems Linked.ofEntries

/-- The tree with every chain as a list or map. -/
def toNative (v : Value) : Value :=
  v.respell .list .map

/-- The linked spelling of a value, unless it breaks the limits: a chain is one deeper for each
item. -/
def toLinkedWithin (limits : Limits) (v : Value) : Except Violation Value :=
  let linked := v.toLinked
  (linked.check limits).map fun _ => linked

end Value

end TreeReduction
