import TreeReduction.Proofs.Respelling

set_option autoImplicit false

/-!
# Respelling twice

The second of two respellings sees through the first. So the native spelling of a value does not
depend on which spelling it is made from (`Value.toNative_toLinked`), and a linked spelling is its
own linked spelling, whatever tags the value came with (`Value.toLinkedWithin_idem`).

A value that spells nothing as a chain is its own native spelling (`Value.toNative_of_unlinked`).
-/

namespace TreeReduction

/-- The shape of the linked spelling of what has a shape. -/
def Shape.linked : Shape → Shape
  | .atom => .atom
  | .site => .site
  | .list => .linkedList
  | .map => .linkedDict
  | .linkedList => .linkedList
  | .linkedDict => .linkedDict

namespace Value

/-! ## Shapes and views -/

theorem shape_site (name : String) : (site name).shape = .site := by
  simp [site, shape, siteName?]

theorem shape_of_isScalar {v : Value} (h : v.isScalar = true) : v.shape = .atom := by
  cases v <;> simp_all [isScalar, shape]

/-- What is seen as a sequence has the shape of a list in one of the spellings. -/
theorem shape_of_sequence {v : Value} {items : List Value} (hname : v.variableName? = none)
    (hview : v.view = .sequence items) : v.shape = .list ∨ v.shape = .linkedList := by
  rcases view_eq_sequence_cases hview with rfl | ⟨es, tag, rfl, hlinked, -⟩
  · exact .inl rfl
  · rw [variableName?] at hname
    exact .inr (by simp [shape, hname, hlinked])

/-- What is seen as a dictionary has the shape of a map in one of the spellings. -/
theorem shape_of_dictionary {v : Value} {entries : List (String × Value)}
    (hname : v.variableName? = none) (hview : v.view = .dictionary entries) :
    v.shape = .map ∨ v.shape = .linkedDict := by
  rcases view_eq_dictionary_cases hview with ⟨rfl, hnone⟩ | ⟨es, tag, items, rfl, hlinked, -, -⟩
  · rw [variableName?] at hname
    exact .inl (by simp [shape, hname, hnone])
  · rw [variableName?] at hname
    exact .inr (by simp [shape, hname, hlinked])

/-! ## The linked spelling of a linked spelling -/

/-- The linked spelling of an ordered value has the linked shape of that value. -/
theorem shape_toLinked {v : Value} (hv : v.Ordered) : v.toLinked.shape = v.shape.linked := by
  cases v using viewInduct with
  | site name => rw [toLinked_site, shape_site, Shape.linked]
  | leaf v hscalar => rw [toLinked_of_isScalar hscalar, shape_of_isScalar hscalar, Shape.linked]
  | sequence v items hname hview _ =>
    rw [toLinked_of_sequence hname hview, Linked.shape_ofItems]
    rcases shape_of_sequence hname hview with hshape | hshape <;> rw [hshape, Shape.linked]
  | dictionary v entries hname hview _ =>
    have hordered : Entries.Ordered (Entries.mapValues toLinked entries) :=
      (Entries.ordered_mapValues_iff _ _).2 (ordered_of_dictionary hv hview)
    rw [toLinked_of_dictionary hname hview, Linked.shape_ofEntries hordered]
    rcases shape_of_dictionary hname hview with hshape | hshape <;> rw [hshape, Shape.linked]

section Twice

variable {ofItems : List Value → Value} {ofEntries : List (String × Value) → Value}

/-- Any respelling of the linked spelling is that respelling of the value: the views of the linked
spelling show the linked spellings of what the views of the value show, at every level. -/
theorem respell_toLinked {v : Value} (hv : v.Ordered) :
    v.toLinked.respell ofItems ofEntries = v.respell ofItems ofEntries := by
  induction v using viewInduct with
  | site name => rw [toLinked_site]
  | leaf v hscalar => rw [toLinked_of_isScalar hscalar]
  | sequence v items hname hview ih =>
    have hname' : v.toLinked.variableName? = none := (variableName?_toLinked v).trans hname
    have hview' : v.toLinked.view = .sequence (items.map toLinked) := by
      rw [toLinked_of_sequence hname hview, view_ofItems]
    have hitems : (items.map toLinked).map (respell ofItems ofEntries) =
        items.map (respell ofItems ofEntries) := by
      rw [List.map_map]
      exact List.map_congr_left fun x hx => ih x hx (hv.part (part_of_mem_sequence hview hx))
    rw [respell_of_sequence hname' hview', respell_of_sequence hname hview, hitems]
  | dictionary v entries hname hview ih =>
    have hname' : v.toLinked.variableName? = none := (variableName?_toLinked v).trans hname
    have hordered : Entries.Ordered (Entries.mapValues toLinked entries) :=
      (Entries.ordered_mapValues_iff _ _).2 (ordered_of_dictionary hv hview)
    have hview' : v.toLinked.view = .dictionary (Entries.mapValues toLinked entries) := by
      rw [toLinked_of_dictionary hname hview, view_ofEntries hordered]
    have hentries : Entries.mapValues (respell ofItems ofEntries)
          (Entries.mapValues toLinked entries) =
        Entries.mapValues (respell ofItems ofEntries) entries := by
      rw [Entries.mapValues, Entries.mapValues, Entries.mapValues, List.map_map]
      refine List.map_congr_left fun p hp => ?_
      exact congrArg (p.1, ·) (ih p hp (hv.part (part_of_mem_dictionary hview hp)))
    rw [respell_of_dictionary hname' hview', respell_of_dictionary hname hview, hentries]

end Twice

/-- A linked spelling that keeps the limits is its own linked spelling within them. It is a linked
list for a list and a linked map for a map, in whichever spelling they are; scalars and variable
sites stay what they are. -/
theorem toLinkedWithin_idem {limits : Limits} {v linked : Value} (hv : v.Ordered)
    (h : v.toLinkedWithin limits = .ok linked) :
    linked.toLinkedWithin limits = .ok linked ∧ linked.shape = v.shape.linked := by
  obtain ⟨u, hcheck, hlinked⟩ := map_eq_ok_iff.1 h
  have hagain : linked.toLinked = linked := by
    rw [← hlinked]
    exact respell_toLinked hv
  refine ⟨?_, hlinked ▸ shape_toLinked hv⟩
  rw [toLinkedWithin, hagain, ← hlinked, hcheck]
  rfl

/-- A map with a tag that makes it no chain, and in it a chain and a variable site. -/
theorem toLinkedWithin_idem_partial :
    let limits : Limits := { maxDepth := 6, allowFloats := true }
    let v : Value := .map [("_type", .str "list"),
      ("head", .map [("_type", .str "list"), ("head", site "x"), ("tail", .null)])]
    v.Ordered ∧ ∃ linked, v.toLinkedWithin limits = .ok linked ∧
      linked.toLinkedWithin limits = .ok linked ∧ v.shape = .map ∧ linked.shape = .linkedDict := by
  intro limits v
  have hordered : v.Ordered := by decide
  have hlinked : v.toLinkedWithin limits = .ok v.toLinked :=
    toLinkedWithin_of_le (by decide) (by decide +kernel) (by decide +kernel) rfl
  obtain ⟨hagain, hshape⟩ := toLinkedWithin_idem hordered hlinked
  exact ⟨hordered, v.toLinked, hlinked, hagain, rfl, hshape⟩

/-! ## The native spelling of a linked spelling -/

/-- No node of a tree spells a list or map as a chain. The nodes of a variable site are the site and
its name, which is a text, so no such node is inside one. -/
def Unlinked (v : Value) : Prop :=
  v.Everywhere fun u => u.shape ≠ .linkedList ∧ u.shape ≠ .linkedDict

instance (v : Value) : Decidable v.Unlinked :=
  inferInstanceAs (Decidable
    (v.Everywhere fun u => u.shape ≠ .linkedList ∧ u.shape ≠ .linkedDict))

theorem view?_of_unlinked {entries : List (String × Value)}
    (hname : (Value.map entries).variableName? = none) (h : (Value.map entries).Unlinked) :
    Linked.view? entries = none := by
  rw [variableName?] at hname
  have hshape := h.self
  cases hlinked : Linked.view? entries with
  | none => rfl
  | some w =>
    obtain ⟨tag, items, -, rfl | ⟨es, -, rfl⟩⟩ := Linked.tagged?_of_view? hlinked
    · exact absurd (by simp [shape, hname, hlinked]) hshape.1
    · exact absurd (by simp [shape, hname, hlinked]) hshape.2

/-- A tree that is not seen through any chain is rebuilt as it stands. -/
theorem toNative_of_unlinked {v : Value} (h : v.Unlinked) : v.toNative = v := by
  unfold toNative
  induction v using induct with
  | scalar v hscalar => exact respell_of_isScalar hscalar
  | list items ih =>
    have hname : (Value.list items).variableName? = none := rfl
    have hitems : items.map (respell .list .map) = items := by
      refine (List.map_congr_left fun x hx => ?_).trans (List.map_id items)
      exact ih x hx (h.part (.item hx (.self x)))
    rw [respell_of_sequence hname (view_list items), hitems]
  | map entries ih =>
    cases hname : (Value.map entries).variableName? with
    | some name =>
      rw [variableName?_eq_some_iff.1 hname]
      exact respell_site name
    | none =>
      have hview : (Value.map entries).view = .dictionary entries := by
        simp [view, view?_of_unlinked hname h]
      have hentries : Entries.mapValues (respell .list .map) entries = entries := by
        refine (List.map_congr_left fun p hp => ?_).trans (List.map_id entries)
        exact congrArg (p.1, ·) (ih p hp (h.part (.entry hp (.self p.2))))
      rw [respell_of_dictionary hname hview, hentries]

/-- A tree without tags has no chains. -/
theorem Untagged.unlinked {v : Value} (h : v.Untagged) : v.Unlinked := by
  intro u hu
  have hnode := h u hu
  cases u with
  | map entries =>
    have hnone := Linked.view?_of_untagged (hnode entries rfl)
    cases hname : siteName? entries <;> simp [shape, hname, hnone]
  | _ => simp [shape]

/-- A value with finite floating-point numbers has a linked spelling within all limits that are wide
enough, and the native spelling of that is the native spelling of the value. A value without chains
is its own native spelling, so a value without tags comes back from its linked spelling. -/
theorem toNative_toLinked {v : Value} (hv : v.Ordered) (hfinite : v.FiniteFloats) :
    (∃ depth width, ∀ limits : Limits, depth ≤ limits.maxDepth → width ≤ limits.maxWidth →
      limits.allowFloats = true → v.toLinkedWithin limits = .ok v.toLinked) ∧
    v.toLinked.toNative = v.toNative ∧
    (v.Unlinked → v.toNative = v) ∧
    (v.Untagged → v.toLinked.toNative = v) := by
  have hsame : v.toLinked.toNative = v.toNative := respell_toLinked hv
  refine ⟨⟨v.toLinked.depth, v.toLinked.width, fun limits => toLinkedWithin_of_le hfinite⟩, hsame,
    toNative_of_unlinked, fun huntagged => ?_⟩
  rw [hsame, toNative_of_unlinked huntagged.unlinked]

/-- A native list with a linked map in it, and a map whose keys are those of chains. -/
theorem toNative_toLinked_mixed :
    let mixed : Value := .list [Linked.ofEntries [("a", .list [])], site "x"]
    let plain : Value := .map [("head", .float ⟨0⟩), ("tail", .list [.map []])]
    (mixed.Ordered ∧ mixed.FiniteFloats ∧ ¬mixed.Unlinked ∧
      mixed.toLinked.toNative = mixed.toNative) ∧
    (plain.Ordered ∧ plain.FiniteFloats ∧ plain.Unlinked ∧ plain.Untagged ∧
      plain.toNative = plain ∧ plain.toLinked.toNative = plain) := by
  intro mixed plain
  have hmixed : mixed.Ordered ∧ mixed.FiniteFloats := by decide
  have hplain : plain.Ordered ∧ plain.FiniteFloats := by decide
  obtain ⟨-, hsame, -, -⟩ := toNative_toLinked hmixed.1 hmixed.2
  obtain ⟨-, -, hnative, hback⟩ := toNative_toLinked hplain.1 hplain.2
  have hunlinked : plain.Unlinked := by decide
  have huntagged : plain.Untagged := by decide
  exact ⟨⟨hmixed.1, hmixed.2, by decide, hsame⟩,
    ⟨hplain.1, hplain.2, hunlinked, huntagged, hnative hunlinked, hback huntagged⟩⟩

end Value

end TreeReduction
