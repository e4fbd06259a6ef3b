import TreeReduction.Proofs.Entries
import TreeReduction.Proofs.Parts

set_option autoImplicit false

/-!
# What a view shows

A view never shows anything that is not in the value: its items and entries are parts of what is
seen, however it is spelled. Seeing through a spelling undoes it: the chain of some items is seen as
these items, and the chain of ordered entries as these entries.

`Value.viewInduct` is induction over what the views of a tree show, which is how `Value.respell`
goes through it.
-/

namespace TreeReduction

open Value (Part)

namespace Linked

/-! ## Decoded parts -/

theorem part_of_mem_items? {v : Value} {items : List Value} (h : items? v = some items)
    {x : Value} (hx : x ∈ items) : Part x v := by
  fun_induction items? v generalizing items with
  | case1 =>
    simp only [Option.some.injEq] at h
    subst h
    simp at hx
  | case2 hd item tl rest hk ih =>
    obtain ⟨its, hits, rfl⟩ := Option.map_eq_some_iff.1 h
    rcases List.mem_cons.1 hx with rfl | hx
    · exact .entry (p := (hd, x)) (by simp) (.self x)
    · exact .entry (p := (tl, rest)) (by simp) (ih hits hx)
  | case3 => simp at h
  | case4 => simp at h

theorem part_of_pair? {v : Value} {p : String × Value} (h : pair? v = some p) : Part p.2 v := by
  unfold pair? at h
  split at h
  · rename_i hd key tl hd' value tl'
    split at h
    · simp only [Option.some.injEq] at h
      subst h
      have inner : Part value (.map [(hd', value), (tl', .null)]) :=
        .entry (p := (hd', value)) (by simp) (.self value)
      exact .entry (p := (tl, .map [(hd', value), (tl', .null)])) (by simp) inner
    · simp at h
  · simp at h

theorem part_of_mem_tagged? {entries : List (String × Value)} {tag : String} {items : List Value}
    (h : tagged? entries = some (tag, items)) {x : Value} (hx : x ∈ items) :
    Part x (.map entries) := by
  unfold tagged? at h
  split at h
  · split at h
    · simp only [Option.some.injEq, Prod.mk.injEq] at h
      simp [← h.2] at hx
    · simp at h
  · rename_i k tag' hd item tl rest
    split at h
    · obtain ⟨its, hits, he⟩ := Option.map_eq_some_iff.1 h
      simp only [Prod.mk.injEq] at he
      rw [← he.2] at hx
      rcases List.mem_cons.1 hx with rfl | hx
      · exact .entry (p := (hd, x)) (by simp) (.self x)
      · exact .entry (p := (tl, rest)) (by simp) (part_of_mem_items? hits hx)
    · simp at h
  · simp at h

theorem part_of_mem_entries? {items : List Value} {entries : List (String × Value)}
    (h : entries? items = some entries) {p : String × Value} (hp : p ∈ entries) :
    ∃ x ∈ items, Part p.2 x := by
  unfold entries? at h
  split at h
  · rename_i pairs hpairs
    split at h
    · simp only [Option.some.injEq] at h
      subst h
      obtain ⟨x, hx, hxp⟩ := exists_of_mem_mapM hpairs (Entries.mem_of_mem_ofList hp)
      exact ⟨x, hx, part_of_pair? hxp⟩
    · simp at h
  · simp at h

theorem ordered_of_entries? {items : List Value} {entries : List (String × Value)}
    (h : entries? items = some entries) : Entries.Ordered entries := by
  unfold entries? at h
  split at h
  · split at h
    · simp only [Option.some.injEq] at h
      exact h ▸ Entries.ordered_ofList _
    · simp at h
  · simp at h

/-- What the entries of a map encode is a tagged chain. -/
theorem tagged?_of_view? {entries : List (String × Value)} {w : View} (h : view? entries = some w) :
    ∃ tag items, tagged? entries = some (tag, items) ∧
      (w = .sequence items ∨ ∃ es, entries? items = some es ∧ w = .dictionary es) := by
  unfold view? at h
  split at h
  · rename_i tag items htagged
    split at h
    · exact ⟨tag, items, htagged, .inl (Option.some.inj h).symm⟩
    · split at h
      · obtain ⟨es, hes, rfl⟩ := Option.map_eq_some_iff.1 h
        exact ⟨tag, items, htagged, .inr ⟨es, hes, rfl⟩⟩
      · simp at h
  · simp at h

/-! ## Decoding undoes encoding -/

@[simp]
theorem items?_chain (items : List Value) : items? (chain items) = some items := by
  induction items with
  | nil => rfl
  | cons x rest ih => simp [chain, link, items?, ih]

@[simp]
theorem pair?_pair (key : String) (value : Value) : pair? (pair key value) = some (key, value) := by
  simp [pair, link, pair?]

/-- Reading back what a list of pairs was encoded as. -/
theorem mapM_pair?_pair (entries : List (String × Value)) :
    (entries.map fun p => pair p.1 p.2).mapM pair? = some entries := by
  induction entries with
  | nil => rfl
  | cons p rest ih => simp [ih]

/-- The chain of ordered entries spells these entries. -/
theorem entries?_of_ordered {entries : List (String × Value)} (h : Entries.Ordered entries) :
    entries? (entries.map fun p => pair p.1 p.2) = some entries := by
  unfold entries?
  rw [mapM_pair?_pair]
  simp only
  rw [if_pos h.nodup_keys, Entries.ofList_of_ordered h]

/-- A tagged chain is a map whose entries spell the tag and the items. -/
theorem tagged_eq (tag : String) (items : List Value) :
    ∃ entries, tagged tag items = .map entries ∧ tagged? entries = some (tag, items) := by
  cases items with
  | nil => exact ⟨_, rfl, by simp [tagged?]⟩
  | cons x rest => exact ⟨_, rfl, by simp [tagged?]⟩

/-- Without the key of a tag, entries encode no container. -/
theorem view?_of_untagged {entries : List (String × Value)} (h : ∀ p ∈ entries, p.1 ≠ typeKey) :
    view? entries = none := by
  have htagged : tagged? entries = none := by
    unfold tagged?
    split
    · rename_i k tag
      exact if_neg (h (k, .str tag) (by simp))
    · rename_i k tag hd item tl rest
      exact if_neg fun hk => h (k, .str tag) (by simp) hk.1
    · rfl
  simp [view?, htagged]

end Linked

namespace Value

/-! ## The parts of a view -/

theorem view_list (items : List Value) : (Value.list items).view = .sequence items := rfl

theorem view_map_of_untagged {entries : List (String × Value)}
    (h : ∀ p ∈ entries, p.1 ≠ Linked.typeKey) : (Value.map entries).view = .dictionary entries := by
  simp [view, Linked.view?_of_untagged h]

/-- What is seen as a sequence is a list or a tagged chain. -/
theorem view_eq_sequence_cases {v : Value} {items : List Value} (h : v.view = .sequence items) :
    v = .list items ∨
    ∃ es tag, v = .map es ∧ Linked.view? es = some (.sequence items) ∧
      Linked.tagged? es = some (tag, items) := by
  cases v with
  | list its => exact .inl (by simpa [view] using h)
  | map es =>
    simp only [view] at h
    cases hview : Linked.view? es with
    | none => simp [hview] at h
    | some w =>
      obtain rfl : w = .sequence items := by simpa [hview] using h
      obtain ⟨tag, its, htagged, hw⟩ := Linked.tagged?_of_view? hview
      obtain rfl : items = its := by simpa using hw
      exact .inr ⟨es, tag, rfl, hview, htagged⟩
  | _ => simp [view] at h

/-- What is seen as a dictionary is a map that encodes nothing or a tagged chain of pairs. -/
theorem view_eq_dictionary_cases {v : Value} {entries : List (String × Value)}
    (h : v.view = .dictionary entries) :
    (v = .map entries ∧ Linked.view? entries = none) ∨
    ∃ es tag items, v = .map es ∧ Linked.view? es = some (.dictionary entries) ∧
      Linked.tagged? es = some (tag, items) ∧ Linked.entries? items = some entries := by
  cases v with
  | map es =>
    simp only [view] at h
    cases hview : Linked.view? es with
    | none =>
      obtain rfl : es = entries := by simpa [hview] using h
      exact .inl ⟨rfl, hview⟩
    | some w =>
      obtain rfl : w = .dictionary entries := by simpa [hview] using h
      obtain ⟨tag, items, htagged, hw⟩ := Linked.tagged?_of_view? hview
      have hentries : Linked.entries? items = some entries := by simpa using hw
      exact .inr ⟨es, tag, items, rfl, hview, htagged, hentries⟩
  | _ => simp [view] at h

/-- The items of a view are parts of the value seen. -/
theorem part_of_mem_sequence {v : Value} {items : List Value} (h : v.view = .sequence items)
    {x : Value} (hx : x ∈ items) : Part x v := by
  rcases view_eq_sequence_cases h with rfl | ⟨es, tag, rfl, -, htagged⟩
  · exact .item hx (.self x)
  · exact Linked.part_of_mem_tagged? htagged hx

/-- What the entries of a view hold are parts of the value seen. -/
theorem part_of_mem_dictionary {v : Value} {entries : List (String × Value)}
    (h : v.view = .dictionary entries) {p : String × Value} (hp : p ∈ entries) : Part p.2 v := by
  rcases view_eq_dictionary_cases h with ⟨rfl, -⟩ | ⟨es, tag, items, rfl, -, htagged, hentries⟩
  · exact .entry hp (.self p.2)
  · obtain ⟨x, hx, hpx⟩ := Linked.part_of_mem_entries? hentries hp
    exact hpx.trans (Linked.part_of_mem_tagged? htagged hx)

/-- A value stands directly below another one: in its view, or among the entries that a map is
spelled with. -/
inductive Child : Value → Value → Prop where
  | item {x v : Value} {items : List Value} (hview : v.view = .sequence items) (hx : x ∈ items) :
      Child x v
  | entry {p : String × Value} {v : Value} {entries : List (String × Value)}
      (hview : v.view = .dictionary entries) (hp : p ∈ entries) : Child p.2 v
  | spelled {p : String × Value} {entries : List (String × Value)} (hp : p ∈ entries) :
      Child p.2 (.map entries)

theorem Child.part {u v : Value} (h : Child u v) : Part u v := by
  cases h with
  | item hview hx => exact part_of_mem_sequence hview hx
  | entry hview hp => exact part_of_mem_dictionary hview hp
  | spelled hp => exact .entry hp (.self _)

theorem Child.sizeOf_lt {u v : Value} (h : Child u v) : sizeOf u < sizeOf v := by
  cases h with
  | item hview hx => exact sizeOf_lt_of_mem_sequence hview hx
  | entry hview hp => exact sizeOf_lt_of_mem_dictionary hview hp
  | spelled hp => exact sizeOf_lt_of_mem_map hp

/-- The entries that a view shows stand in the order of their keys. -/
theorem ordered_of_dictionary {v : Value} (hv : v.Ordered) {entries : List (String × Value)}
    (h : v.view = .dictionary entries) : Entries.Ordered entries := by
  rcases view_eq_dictionary_cases h with ⟨rfl, -⟩ | ⟨es, tag, items, rfl, -, -, hentries⟩
  · exact ((ordered_map_iff entries).1 hv).1
  · exact Linked.ordered_of_entries? hentries

/-- Only a scalar is seen as a leaf. -/
theorem view_eq_leaf_iff {v : Value} : v.view = .leaf ↔ v.isScalar = true := by
  constructor
  · intro h
    cases v with
    | list items => simp [view] at h
    | map entries =>
      simp only [view, Linked.view?] at h
      split at h
      · rename_i tag its htagged
        split at h
        · simp at h
        · split at h
          · cases he : Linked.entries? its <;> simp [he] at h
          · simp at h
      · simp at h
    | _ => rfl
  · exact view_of_isScalar

theorem isScalar_of_view_ne_leaf {v : Value} (h : v.view ≠ .leaf) : v.isScalar = false := by
  rw [← Bool.not_eq_true, ← view_eq_leaf_iff]
  exact h

/-! ## Induction over views -/

/-- Induction over what the views of a tree show, variable sites left whole. -/
@[elab_as_elim]
theorem viewInduct {motive : Value → Prop}
    (site : ∀ name, motive (site name))
    (leaf : ∀ v, v.isScalar = true → motive v)
    (sequence : ∀ v items, v.variableName? = none → v.view = .sequence items →
      (∀ x ∈ items, motive x) → motive v)
    (dictionary : ∀ v entries, v.variableName? = none → v.view = .dictionary entries →
      (∀ p ∈ entries, motive p.2) → motive v) (v : Value) : motive v := by
  cases hname : v.variableName? with
  | some name =>
    rw [variableName?_eq_some_iff.1 hname]
    exact site name
  | none =>
    cases hview : v.view with
    | leaf => exact leaf v (view_eq_leaf_iff.1 hview)
    | sequence items =>
      refine sequence v items hname hview fun x hx => ?_
      have _smaller := sizeOf_lt_of_mem_sequence hview hx
      exact viewInduct site leaf sequence dictionary x
    | dictionary entries =>
      refine dictionary v entries hname hview fun p hp => ?_
      have _smaller := sizeOf_lt_of_mem_dictionary hview hp
      exact viewInduct site leaf sequence dictionary p.2
  termination_by sizeOf v

/-! ## Views of encodings -/

theorem view_ofItems (items : List Value) : (Linked.ofItems items).view = .sequence items := by
  obtain ⟨entries, hentries, htagged⟩ := Linked.tagged_eq Linked.listTag items
  simp [Linked.ofItems, hentries, view, Linked.view?, htagged]

theorem view_ofEntries {entries : List (String × Value)} (h : Entries.Ordered entries) :
    (Linked.ofEntries entries).view = .dictionary entries := by
  obtain ⟨es, hes, htagged⟩ :=
    Linked.tagged_eq Linked.dictTag (entries.map fun p => Linked.pair p.1 p.2)
  have hne : Linked.dictTag ≠ Linked.listTag := by decide
  simp [Linked.ofEntries, hes, view, Linked.view?, htagged, hne, Linked.entries?_of_ordered h]

/-! ## Respelling -/

section Respelling

variable {ofItems : List Value → Value} {ofEntries : List (String × Value) → Value}

theorem respell_site (name : String) : (site name).respell ofItems ofEntries = site name := by
  have hname : (site name).variableName? = some name := variableName?_eq_some_iff.2 rfl
  unfold respell
  rw [hname]

theorem respell_of_isScalar {v : Value} (h : v.isScalar = true) :
    v.respell ofItems ofEntries = v := by
  unfold respell
  rw [variableName?_of_isScalar h]
  simp only
  split
  · rfl
  · rename_i hview
    simp [view_of_isScalar h] at hview
  · rename_i hview
    simp [view_of_isScalar h] at hview

theorem respell_of_sequence {v : Value} {items : List Value} (hname : v.variableName? = none)
    (hview : v.view = .sequence items) :
    v.respell ofItems ofEntries = ofItems (items.map (respell ofItems ofEntries)) := by
  rw [respell, hname]
  simp only
  split
  · rename_i h
    simp [h] at hview
  · rename_i its h
    obtain rfl : its = items := by simpa [h] using hview
    simp
  · rename_i h
    simp [h] at hview

theorem respell_of_dictionary {v : Value} {entries : List (String × Value)}
    (hname : v.variableName? = none) (hview : v.view = .dictionary entries) :
    v.respell ofItems ofEntries =
      ofEntries (Entries.mapValues (respell ofItems ofEntries) entries) := by
  rw [respell, hname]
  simp only
  split
  · rename_i h
    simp [h] at hview
  · rename_i h
    simp [h] at hview
  · rename_i es h
    obtain rfl : es = entries := by simpa [h] using hview
    have hattach : es.attach.map (fun x => (x.val.1, respell ofItems ofEntries x.val.2)) =
        (es.attach.map Subtype.val).map fun p => (p.1, respell ofItems ofEntries p.2) := by
      rw [List.map_map]
      rfl
    rw [hattach, List.attach_map_subtype_val]
    rfl

end Respelling

end Value

end TreeReduction
