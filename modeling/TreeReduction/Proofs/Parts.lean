import TreeReduction.Linked
import TreeReduction.Proofs.Entries

set_option autoImplicit false

/-!
# Parts of a value

The nodes of a tree, and what is said of all of them. `Value.induct` is induction over a tree that
hands over one hypothesis for each child, `Value.Part u v` says that `u` is a node of `v`, and
`Value.Everywhere P v` that every node of `v` has the property `P`. What holds everywhere in a tree
holds everywhere in each of its parts, so a function that only takes trees apart keeps it.

The properties that the rest is about are of this kind: a tree may be free of floating-point
numbers or hold only finite ones, and none of its maps may have some key.
-/

namespace TreeReduction.Value

/-! ## Induction -/

/-- Induction over a tree, with a hypothesis for every child of a container. -/
@[elab_as_elim]
theorem induct {motive : Value → Prop}
    (scalar : ∀ v, v.isScalar = true → motive v)
    (list : ∀ items, (∀ x ∈ items, motive x) → motive (.list items))
    (map : ∀ entries, (∀ p ∈ entries, motive p.2) → motive (.map entries)) :
    ∀ v, motive v
  | .list items => list items fun x _hx => induct scalar list map x
  | .map entries => map entries fun p _hp => induct scalar list map p.2
  | .null => scalar _ rfl
  | .bool _ => scalar _ rfl
  | .int _ => scalar _ rfl
  | .float _ => scalar _ rfl
  | .str _ => scalar _ rfl
  termination_by v => sizeOf v
  decreasing_by
    · exact sizeOf_lt_of_mem_list _hx
    · exact sizeOf_lt_of_mem_map _hp

/-! ## Scalars -/

theorem sameScalar_iff {u v : Value} : u.sameScalar v = true ↔ u.isScalar = true ∧ u = v := by
  cases u <;> cases v <;> simp [sameScalar, isScalar]

theorem view_of_isScalar {v : Value} (h : v.isScalar = true) : v.view = .leaf := by
  cases v <;> simp_all [isScalar, view]

theorem text?_eq_some_iff {v : Value} {text : String} : v.text? = some text ↔ v = .str text := by
  cases v <;> simp [text?]

theorem variableName?_of_isScalar {v : Value} (h : v.isScalar = true) : v.variableName? = none := by
  cases v <;> simp_all [isScalar, variableName?]

/-- A map with a name is the variable site with that name. -/
theorem variableName?_eq_some_iff {v : Value} {name : String} :
    v.variableName? = some name ↔ v = site name := by
  constructor
  · intro h
    unfold variableName? at h
    split at h
    · unfold siteName? at h
      split at h
      · split at h
        · rename_i hk
          simp only [Option.some.injEq] at h
          rw [hk, h, site]
        · simp at h
      · simp at h
    · simp at h
  · rintro rfl
    simp [site, variableName?, siteName?]

/-! ## Parts -/

/-- A value is a node of a tree: the whole tree, or a node of a child. -/
inductive Part : Value → Value → Prop where
  | self (v : Value) : Part v v
  | item {u x : Value} {items : List Value} (hx : x ∈ items) (h : Part u x) : Part u (.list items)
  | entry {u : Value} {p : String × Value} {entries : List (String × Value)} (hp : p ∈ entries)
      (h : Part u p.2) : Part u (.map entries)

theorem Part.trans {u v w : Value} (huv : Part u v) (hvw : Part v w) : Part u w := by
  induction hvw with
  | self => exact huv
  | item hx _ ih => exact .item hx ih
  | entry hp _ ih => exact .entry hp ih

theorem part_of_isScalar {u v : Value} (h : v.isScalar = true) (hu : Part u v) : u = v := by
  cases hu with
  | self => rfl
  | item => simp [isScalar] at h
  | entry => simp [isScalar] at h

/-- Every node of a tree has a property. -/
def Everywhere (P : Value → Prop) (v : Value) : Prop :=
  ∀ u, Part u v → P u

section Everywhere

variable {P : Value → Prop}

theorem Everywhere.self {v : Value} (h : v.Everywhere P) : P v :=
  h v (.self v)

theorem Everywhere.part {u v : Value} (h : v.Everywhere P) (hu : Part u v) : u.Everywhere P :=
  fun w hw => h w (hw.trans hu)

theorem everywhere_scalar_iff {v : Value} (h : v.isScalar = true) : v.Everywhere P ↔ P v := by
  constructor
  · exact Everywhere.self
  · intro hv u hu
    rwa [part_of_isScalar h hu]

theorem everywhere_list_iff (items : List Value) :
    (Value.list items).Everywhere P ↔ P (.list items) ∧ ∀ x ∈ items, x.Everywhere P := by
  constructor
  · exact fun h => ⟨h.self, fun x hx => h.part (.item hx (.self x))⟩
  · rintro ⟨hself, hitems⟩ u hu
    cases hu with
    | self => exact hself
    | item hx hu => exact hitems _ hx u hu

theorem everywhere_map_iff (entries : List (String × Value)) :
    (Value.map entries).Everywhere P ↔
      P (.map entries) ∧ ∀ p ∈ entries, (p.2 : Value).Everywhere P := by
  constructor
  · exact fun h => ⟨h.self, fun p hp => h.part (.entry hp (.self p.2))⟩
  · rintro ⟨hself, hentries⟩ u hu
    cases hu with
    | self => exact hself
    | entry hp hu => exact hentries _ hp u hu

end Everywhere

/-! ## Floating-point numbers -/

/-- No node is a floating-point number. -/
def FloatFree (v : Value) : Prop :=
  v.Everywhere fun u => ∀ x, u ≠ .float x

/-- Every floating-point number of the tree is finite. -/
def FiniteFloats (v : Value) : Prop :=
  v.Everywhere fun u => ∀ x, u = .float x → x.isFinite = true

theorem FloatFree.finiteFloats {v : Value} (h : v.FloatFree) : v.FiniteFloats :=
  fun u hu x hx => absurd hx (h u hu x)

@[simp]
theorem floatFree_list_iff (items : List Value) :
    (Value.list items).FloatFree ↔ ∀ x ∈ items, x.FloatFree := by
  simp [FloatFree, everywhere_list_iff]

@[simp]
theorem floatFree_map_iff (entries : List (String × Value)) :
    (Value.map entries).FloatFree ↔ ∀ p ∈ entries, (p.2 : Value).FloatFree := by
  simp [FloatFree, everywhere_map_iff]

theorem floatFree_scalar_iff {v : Value} (h : v.isScalar = true) :
    v.FloatFree ↔ ∀ x, v ≠ .float x :=
  everywhere_scalar_iff h

@[simp]
theorem finiteFloats_list_iff (items : List Value) :
    (Value.list items).FiniteFloats ↔ ∀ x ∈ items, x.FiniteFloats := by
  simp [FiniteFloats, everywhere_list_iff]

@[simp]
theorem finiteFloats_map_iff (entries : List (String × Value)) :
    (Value.map entries).FiniteFloats ↔ ∀ p ∈ entries, (p.2 : Value).FiniteFloats := by
  simp [FiniteFloats, everywhere_map_iff]

theorem finiteFloats_scalar_iff {v : Value} (h : v.isScalar = true) :
    v.FiniteFloats ↔ ∀ x, v = .float x → x.isFinite = true :=
  everywhere_scalar_iff h

@[simp]
theorem finiteFloats_null : Value.null.FiniteFloats :=
  (finiteFloats_scalar_iff rfl).2 (by simp)

@[simp]
theorem finiteFloats_str (s : String) : (Value.str s).FiniteFloats :=
  (finiteFloats_scalar_iff rfl).2 (by simp)

/-! ## Keys -/

/-- No map of the tree has a key. -/
def Lacks (key : String) (v : Value) : Prop :=
  v.Everywhere fun u => ∀ entries, u = .map entries → ∀ p ∈ entries, p.1 ≠ key

/-- No map of the tree has the key of a tag, so none is a linked encoding. -/
def Untagged (v : Value) : Prop :=
  v.Lacks Linked.typeKey

/-- No map of the tree has a reserved key. -/
def Unreserved (v : Value) : Prop :=
  ∀ key ∈ reservedKeys, v.Lacks key

theorem lacks_of_isScalar {v : Value} (key : String) (h : v.isScalar = true) : v.Lacks key := by
  rw [Lacks, everywhere_scalar_iff h]
  rintro entries rfl
  simp [isScalar] at h

@[simp]
theorem lacks_list_iff (key : String) (items : List Value) :
    (Value.list items).Lacks key ↔ ∀ x ∈ items, x.Lacks key := by
  simp [Lacks, everywhere_list_iff]

@[simp]
theorem lacks_map_iff (key : String) (entries : List (String × Value)) :
    (Value.map entries).Lacks key ↔
      (∀ p ∈ entries, p.1 ≠ key) ∧ ∀ p ∈ entries, (p.2 : Value).Lacks key := by
  simp [Lacks, everywhere_map_iff]

/-! ## Order -/

theorem orderedItems_iff (items : List Value) : OrderedItems items ↔ ∀ x ∈ items, x.Ordered := by
  induction items with
  | nil => simp [OrderedItems]
  | cons x rest ih => simp [OrderedItems, ih]

theorem orderedEntries_iff (entries : List (String × Value)) :
    OrderedEntries entries ↔ ∀ p ∈ entries, (p.2 : Value).Ordered := by
  induction entries with
  | nil => simp [OrderedEntries]
  | cons p rest ih => simp [OrderedEntries, ih]

@[simp]
theorem ordered_list_iff (items : List Value) :
    (Value.list items).Ordered ↔ ∀ x ∈ items, x.Ordered := by
  rw [Ordered, orderedItems_iff]

@[simp]
theorem ordered_map_iff (entries : List (String × Value)) :
    (Value.map entries).Ordered ↔
      Entries.Ordered entries ∧ ∀ p ∈ entries, (p.2 : Value).Ordered := by
  rw [Ordered, orderedEntries_iff]

theorem Ordered.part {u v : Value} (h : v.Ordered) (hu : Part u v) : u.Ordered := by
  induction hu with
  | self => exact h
  | item hx _ ih => exact ih ((ordered_list_iff _).1 h _ hx)
  | entry hp _ ih => exact ih (((ordered_map_iff _).1 h).2 _ hp)

theorem ordered_iff_everywhere (v : Value) :
    v.Ordered ↔ v.Everywhere fun u => ∀ entries, u = .map entries → Entries.Ordered entries := by
  induction v using induct with
  | scalar v h =>
    rw [everywhere_scalar_iff h]
    cases v <;> simp_all [isScalar, Ordered]
  | list items ih =>
    rw [ordered_list_iff, everywhere_list_iff]
    simp only [reduceCtorEq, false_implies, implies_true, true_and]
    exact forall₂_congr ih
  | map entries ih =>
    rw [ordered_map_iff, everywhere_map_iff]
    simp only [map.injEq, forall_eq']
    exact and_congr_right' (forall₂_congr ih)

/-! ## Decisions -/

mutual

/-- Whether every node of a tree passes a test. -/
def all (test : Value → Bool) : Value → Bool
  | .list items => test (.list items) && allItems test items
  | .map entries => test (.map entries) && allEntries test entries
  | v => test v

/-- Whether every node of every item passes a test. -/
def allItems (test : Value → Bool) : List Value → Bool
  | [] => true
  | item :: rest => item.all test && allItems test rest

/-- Whether every node under every key passes a test. -/
def allEntries (test : Value → Bool) : List (String × Value) → Bool
  | [] => true
  | (_, value) :: rest => value.all test && allEntries test rest

end

section Decisions

variable {P : Value → Prop} [DecidablePred P]

theorem allItems_iff (test : Value → Bool) (items : List Value) :
    allItems test items = true ↔ ∀ x ∈ items, x.all test = true := by
  induction items with
  | nil => simp [allItems]
  | cons x rest ih => simp [allItems, ih]

theorem allEntries_iff (test : Value → Bool) (entries : List (String × Value)) :
    allEntries test entries = true ↔ ∀ p ∈ entries, (p.2 : Value).all test = true := by
  induction entries with
  | nil => simp [allEntries]
  | cons p rest ih => simp [allEntries, ih]

theorem all_iff_everywhere (v : Value) : v.all (decide <| P ·) = true ↔ v.Everywhere P := by
  induction v using induct with
  | scalar v h =>
    rw [everywhere_scalar_iff h]
    cases v <;> simp_all [isScalar, all]
  | list items ih =>
    rw [all, Bool.and_eq_true, decide_eq_true_iff, allItems_iff, everywhere_list_iff]
    exact and_congr_right' (forall₂_congr ih)
  | map entries ih =>
    rw [all, Bool.and_eq_true, decide_eq_true_iff, allEntries_iff, everywhere_map_iff]
    exact and_congr_right' (forall₂_congr ih)

instance decidableEverywhere (v : Value) : Decidable (v.Everywhere P) :=
  decidable_of_iff _ (all_iff_everywhere v)

end Decisions

/-- What is asked of floating-point numbers holds of every other node. -/
instance decidableOnFloats (P : Binary64 → Prop) [DecidablePred P] :
    DecidablePred fun u : Value => ∀ x, u = .float x → P x
  | .float x => decidable_of_iff (P x) (by simp)
  | .null | .bool _ | .int _ | .str _ | .list _ | .map _ => .isTrue (by simp)

/-- What is asked of maps holds of every other node. -/
instance decidableOnMaps (P : List (String × Value) → Prop) [DecidablePred P] :
    DecidablePred fun u : Value => ∀ entries, u = .map entries → P entries
  | .map entries => decidable_of_iff (P entries) (by simp)
  | .null | .bool _ | .int _ | .float _ | .str _ | .list _ => .isTrue (by simp)

instance (v : Value) : Decidable v.FloatFree :=
  inferInstanceAs (Decidable (v.Everywhere fun u => ∀ x, u = .float x → False))

instance (v : Value) : Decidable v.FiniteFloats :=
  inferInstanceAs (Decidable (v.Everywhere fun u => ∀ x, u = .float x → x.isFinite = true))

instance (key : String) (v : Value) : Decidable (v.Lacks key) :=
  inferInstanceAs (Decidable
    (v.Everywhere fun u => ∀ entries, u = .map entries → ∀ p ∈ entries, p.1 ≠ key))

instance (v : Value) : Decidable v.Untagged :=
  inferInstanceAs (Decidable (v.Lacks Linked.typeKey))

instance (v : Value) : Decidable v.Ordered :=
  decidable_of_iff _ (ordered_iff_everywhere v).symm

end TreeReduction.Value
