import TreeReduction.Proofs.Admission
import TreeReduction.Proofs.Views

set_option autoImplicit false

/-!
# The linked spelling of a tree

What `Value.toLinked` makes of each kind of value, and that the views do not see it: the view of the
linked spelling shows the linked spellings of what the view showed (`Value.view_toLinked`).

A tree without tags has to be read as it stands for that. The rest holds of every tree: kinds and
names are kept, and no floating-point number is added.
-/

namespace TreeReduction

/-- A view with a function applied to everything in it. -/
def View.map (f : Value → Value) : View → View
  | .leaf => .leaf
  | .sequence items => .sequence (items.map f)
  | .dictionary entries => .dictionary (Entries.mapValues f entries)

@[simp]
theorem View.map_id (w : View) : w.map id = w := by
  cases w <;> simp [View.map]

namespace Linked

/-! ## Tagged chains are containers -/

theorem isScalar_tagged (tag : String) (items : List Value) :
    (tagged tag items).isScalar = false := by
  cases items <;> rfl

theorem variableName?_tagged (tag : String) (items : List Value) :
    (tagged tag items).variableName? = none := by
  cases items with
  | nil =>
    have hne : typeKey ≠ Value.variableKey := by decide
    simp [tagged, Value.variableName?, Value.siteName?, hne]
  | cons x rest => rfl

@[simp]
theorem finiteFloats_chain_iff (items : List Value) :
    (chain items).FiniteFloats ↔ ∀ x ∈ items, x.FiniteFloats := by
  induction items with
  | nil => simp [chain]
  | cons x rest ih => simp [chain, link, ih]

@[simp]
theorem finiteFloats_tagged_iff (tag : String) (items : List Value) :
    (tagged tag items).FiniteFloats ↔ ∀ x ∈ items, x.FiniteFloats := by
  cases items with
  | nil => simp [tagged]
  | cons x rest => simp [tagged]

@[simp]
theorem finiteFloats_pair_iff (key : String) (value : Value) :
    (pair key value).FiniteFloats ↔ value.FiniteFloats := by
  simp [pair, link]

theorem finiteFloats_ofEntries_iff (entries : List (String × Value)) :
    (ofEntries entries).FiniteFloats ↔ ∀ p ∈ entries, (p.2 : Value).FiniteFloats := by
  rw [ofEntries, finiteFloats_tagged_iff, List.forall_mem_map]
  exact forall₂_congr fun p _ => finiteFloats_pair_iff p.1 p.2

theorem shape_ofItems (items : List Value) : (ofItems items).shape = .linkedList := by
  have hname := variableName?_tagged listTag items
  obtain ⟨entries, hentries, htagged⟩ := tagged_eq listTag items
  rw [ofItems, hentries]
  rw [hentries, Value.variableName?] at hname
  simp [Value.shape, hname, view?, htagged]

theorem shape_ofEntries {entries : List (String × Value)} (h : Entries.Ordered entries) :
    (ofEntries entries).shape = .linkedDict := by
  have hname := variableName?_tagged dictTag (entries.map fun p => pair p.1 p.2)
  obtain ⟨es, hes, htagged⟩ := tagged_eq dictTag (entries.map fun p => pair p.1 p.2)
  have hne : dictTag ≠ listTag := by decide
  rw [ofEntries, hes]
  rw [hes, Value.variableName?] at hname
  simp [Value.shape, hname, view?, htagged, hne, entries?_of_ordered h]

end Linked

namespace Value

/-! ## One level of the linked spelling -/

theorem toLinked_site (name : String) : (site name).toLinked = site name :=
  respell_site name

theorem toLinked_of_isScalar {v : Value} (h : v.isScalar = true) : v.toLinked = v :=
  respell_of_isScalar h

theorem toLinked_of_sequence {v : Value} {items : List Value} (hname : v.variableName? = none)
    (hview : v.view = .sequence items) : v.toLinked = Linked.ofItems (items.map toLinked) :=
  respell_of_sequence hname hview

theorem toLinked_of_dictionary {v : Value} {entries : List (String × Value)}
    (hname : v.variableName? = none) (hview : v.view = .dictionary entries) :
    v.toLinked = Linked.ofEntries (Entries.mapValues toLinked entries) :=
  respell_of_dictionary hname hview

/-! ## What the linked spelling keeps -/

theorem isScalar_toLinked (v : Value) : v.toLinked.isScalar = v.isScalar := by
  cases v using viewInduct with
  | site name => rw [toLinked_site]
  | leaf v hv => rw [toLinked_of_isScalar hv]
  | sequence v items hname hview _ =>
    have hv : v.isScalar = false := isScalar_of_view_ne_leaf (by simp [hview])
    rw [toLinked_of_sequence hname hview, hv]
    exact Linked.isScalar_tagged _ _
  | dictionary v entries hname hview _ =>
    have hv : v.isScalar = false := isScalar_of_view_ne_leaf (by simp [hview])
    rw [toLinked_of_dictionary hname hview, hv]
    exact Linked.isScalar_tagged _ _

theorem variableName?_toLinked (v : Value) : v.toLinked.variableName? = v.variableName? := by
  cases v using viewInduct with
  | site name => rw [toLinked_site]
  | leaf v hv => rw [toLinked_of_isScalar hv]
  | sequence v items hname hview _ =>
    rw [toLinked_of_sequence hname hview, hname]
    exact Linked.variableName?_tagged _ _
  | dictionary v entries hname hview _ =>
    rw [toLinked_of_dictionary hname hview, hname]
    exact Linked.variableName?_tagged _ _

/-- The linked spelling of a container that is no site is no ordinary map. -/
theorem shape_toLinked_ne_map {v : Value} (hname : v.variableName? = none) (hu : v.Untagged)
    (ho : v.Ordered) : v.toLinked.shape ≠ .map := by
  cases v with
  | list items =>
    rw [toLinked_of_sequence hname (view_list items), Linked.shape_ofItems]
    simp
  | map entries =>
    rw [Untagged, lacks_map_iff] at hu
    rw [ordered_map_iff] at ho
    rw [toLinked_of_dictionary hname (view_map_of_untagged hu.1),
      Linked.shape_ofEntries ((Entries.ordered_mapValues_iff _ _).2 ho.1)]
    simp
  | _ =>
    rw [toLinked_of_isScalar rfl]
    simp [shape]

theorem finiteFloats_toLinked {v : Value} (h : v.FiniteFloats) : v.toLinked.FiniteFloats := by
  induction v using viewInduct with
  | site name => rwa [toLinked_site]
  | leaf v hv => rwa [toLinked_of_isScalar hv]
  | sequence v items hname hview ih =>
    rw [toLinked_of_sequence hname hview, Linked.ofItems, Linked.finiteFloats_tagged_iff,
      List.forall_mem_map]
    exact fun x hx => ih x hx (h.part (part_of_mem_sequence hview hx))
  | dictionary v entries hname hview ih =>
    rw [toLinked_of_dictionary hname hview, Linked.finiteFloats_ofEntries_iff]
    intro q hq
    obtain ⟨p, hp, rfl⟩ := Entries.mem_mapValues_iff.1 hq
    exact ih p hp (h.part (part_of_mem_dictionary hview hp))

/-- A value with finite numbers has a linked spelling within all limits that are wide enough. -/
theorem toLinkedWithin_of_le {v : Value} (h : v.FiniteFloats) {limits : Limits}
    (hdepth : v.toLinked.depth ≤ limits.maxDepth) (hwidth : v.toLinked.width ≤ limits.maxWidth)
    (hfloats : limits.allowFloats = true) : v.toLinkedWithin limits = .ok v.toLinked := by
  have hcheck : v.toLinked.check limits = .ok () :=
    (check_eq_ok_iff limits v.toLinked).2
      ⟨hdepth, hwidth, finiteFloats_toLinked h, .inl hfloats⟩
  simp [toLinkedWithin, hcheck, Except.map]

/-! ## Seeing through the linked spelling -/

/-- The view of a tree without tags shows the same through the linked spelling. -/
theorem view_toLinked {v : Value} (hu : v.Untagged) (ho : v.Ordered) :
    v.toLinked.view = v.view.map toLinked := by
  cases v with
  | list items =>
    have hname : (Value.list items).variableName? = none := rfl
    rw [toLinked_of_sequence hname (view_list items), view_ofItems, view_list, View.map]
  | map entries =>
    rw [Untagged, lacks_map_iff] at hu
    rw [ordered_map_iff] at ho
    have hview := view_map_of_untagged hu.1
    cases hname : (Value.map entries).variableName? with
    | none =>
      rw [toLinked_of_dictionary hname hview,
        view_ofEntries ((Entries.ordered_mapValues_iff _ _).2 ho.1), hview, View.map]
    | some name =>
      obtain rfl : entries = [(variableKey, .str name)] := by
        simpa [site] using variableName?_eq_some_iff.1 hname
      have hstr : (Value.str name).toLinked = .str name := toLinked_of_isScalar rfl
      have hsite : (Value.map [(variableKey, .str name)]).toLinked =
          .map [(variableKey, .str name)] := toLinked_site name
      rw [hsite, hview]
      simp [View.map, hstr]
  | _ => rw [toLinked_of_isScalar rfl, view_of_isScalar rfl, View.map]

end Value

end TreeReduction
