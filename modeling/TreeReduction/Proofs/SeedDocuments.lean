import TreeReduction.Proofs.Drafting
import TreeReduction.Proofs.Instantiation
import TreeReduction.Proofs.Nesting

set_option autoImplicit false

/-!
# Seed documents as JSON

A seed that is written is read as the same seed (`Seed.Document.decode_toJson`). The patterns and
bodies of a seed are kept as documents, so they have to be in order already; they are, and three
levels lie above each, if the seed was read itself (`Seed.below_of_decode`).
-/

namespace TreeReduction.Seed

/-! ## What is read comes out of the document -/

/-- A list that was read has what every item of an array was read as. -/
theorem listOf_eq_ok_iff {α : Type} (read : Json → Except SchemaFault α) (json : Json)
    (xs : List α) :
    listOf read json = .ok xs ↔
      ∃ items, json = .array items ∧ List.Forall₂ (fun item x => read item = .ok x) items xs := by
  cases json with
  | array items =>
    simp only [listOf, Json.array.injEq, exists_eq_left']
    exact mapM_eq_ok_iff
  | _ => simp [listOf]

/-- What holds before any field was read and is kept by every field that is read holds of the
record. -/
theorem Schema.of_readAll {α : Type} {s : Schema α} {P : α → Prop} {fields : List (String × Json)}
    (hread : ∀ f ∈ fields, ∀ put, s.read f.1 f.2 = .ok put → ∀ r, P r → P (put r))
    {blank record : α} (hblank : P blank) (h : s.readAll fields blank = .ok record) : P record := by
  induction fields generalizing blank with
  | nil => exact Except.ok.inj h ▸ hblank
  | cons f rest ih =>
    obtain ⟨hf, hrest⟩ := List.forall_mem_cons.1 hread
    rw [readAll] at h
    split at h
    · split at h
      · simp at h
      · rename_i put hput
        exact ih hrest (hf put hput blank hblank) h
    · simp at h

/-- What is read into a record comes from the children of a container. -/
theorem Schema.of_decode {α : Type} {s : Schema α} {P : α → Prop} {json : Json} {record : α}
    (hblank : P s.blank)
    (hread : ∀ name, ∀ x ∈ json.children, ∀ put, s.read name x = .ok put → ∀ r, P r → P (put r))
    (h : s.decode json = .ok record) : 0 < json.depth ∧ P record := by
  cases json with
  | object members =>
    simp only [decode] at h
    split at h
    · simp at h
    · rename_i other hall
      have hP : P other := of_readAll
        (fun m hm => hread m.1 m.2 (List.mem_map_of_mem hm)) hblank hall
      split at h
      · simp at h
      · exact ⟨Nat.succ_pos _, Except.ok.inj h ▸ hP⟩
  | array items =>
    simp only [decode] at h
    split at h
    · simp at h
    · rename_i other hall
      have hP : P other := of_readAll
        (fun f hf => hread f.1 f.2 (List.of_mem_zip hf).2) hblank hall
      split at h
      · simp at h
      · split at h
        · simp at h
        · exact ⟨Nat.succ_pos _, Except.ok.inj h ▸ hP⟩
  | _ => simp [decode] at h

/-- A document in order that lies some levels below another one. -/
structure Below (levels : Nat) (x json : Json) : Prop where
  settled : x.Settled
  depth_le : x.depth + levels ≤ json.depth

/-- One more level lies between a document and what holds the one above it. -/
theorem Below.of_child {levels : Nat} {x y json : Json} (h : Below levels x y)
    (hy : y ∈ json.children) : Below (levels + 1) x json := by
  have hlevel := Json.depth_lt_of_mem_children hy
  exact ⟨h.settled, by have := h.depth_le; omega⟩

/-- Both sides of an entry come from the document it was read from. -/
theorem below_of_decode_entry {json : Json} {e : Entry} (hjson : json.Settled)
    (h : entrySchema.decode json = .ok e) : Below 1 e.pattern json ∧ Below 1 e.body json := by
  have hsource : 0 < json.depth ∧ (e.pattern = .null ∨ e.pattern ∈ json.children) ∧
      (e.body = .null ∨ e.body ∈ json.children) := by
    refine Schema.of_decode (P := fun e : Entry => (e.pattern = .null ∨ e.pattern ∈ json.children) ∧
      (e.body = .null ∨ e.body ∈ json.children)) ⟨.inl rfl, .inl rfl⟩ ?_ h
    rintro name x hx put hput r ⟨hpattern, hbody⟩
    simp only [entrySchema] at hput
    split at hput
    · obtain ⟨s, -, rfl⟩ := map_eq_ok_iff.1 hput
      exact ⟨hpattern, hbody⟩
    · exact Except.ok.inj hput ▸ ⟨.inr hx, hbody⟩
    · exact Except.ok.inj hput ▸ ⟨hpattern, .inr hx⟩
  obtain ⟨hpos, hpattern, hbody⟩ := hsource
  have hbelow : ∀ x : Json, x = .null ∨ x ∈ json.children → Below 1 x json := by
    rintro x (rfl | hx)
    · exact ⟨rfl, by simpa [Json.depth] using Nat.succ_le_of_lt hpos⟩
    · exact ⟨hjson.child hx, Json.depth_lt_of_mem_children hx⟩
  exact ⟨hbelow _ hpattern, hbelow _ hbody⟩

/-- The patterns and bodies of a seed that was read from a document in order are in order
themselves, and three levels lie above each. -/
theorem below_of_decode {json : Json} {d : Document} (hjson : json.Settled)
    (h : documentSchema.decode json = .ok d) :
    ∀ e ∈ d.entries, Below 3 e.pattern json ∧ Below 3 e.body json := by
  refine (Schema.of_decode (P := fun d : Document => ∀ e ∈ d.entries,
    Below 3 e.pattern json ∧ Below 3 e.body json) (by simp [documentSchema]) ?_ h).2
  intro name x hx put hput r hr
  simp only [documentSchema] at hput
  split at hput
  · obtain ⟨m, -, rfl⟩ := map_eq_ok_iff.1 hput
    exact hr
  · obtain ⟨entries, hentries, rfl⟩ := map_eq_ok_iff.1 hput
    obtain ⟨items, rfl, hitems⟩ := (listOf_eq_ok_iff _ _ _).1 hentries
    intro e he
    obtain ⟨item, hitem, hdecode⟩ := Value.exists_left_of_mem hitems he
    have hchild : item ∈ (Json.array items).children := hitem
    obtain ⟨hpattern, hbody⟩ := below_of_decode_entry ((hjson.child hx).child hchild) hdecode
    exact ⟨(hpattern.of_child hchild).of_child hx, (hbody.of_child hchild).of_child hx⟩
  · obtain ⟨s, -, rfl⟩ := map_eq_ok_iff.1 hput
    exact hr

/-! ## What is written is read back -/

theorem Schema.decode_object {α : Type} {s : Schema α} {members : List (String × Json)} {record : α}
    (h : s.readAll members s.blank = .ok record)
    (hrequired : ∀ name ∈ s.required, ∃ m ∈ members, m.1 = name) :
    s.decode (.object members) = .ok record := by
  have hnone : s.required.find? (fun name => !(members.any fun m => m.1 == name)) = none := by
    simpa using hrequired
  simp only [decode, h, hnone]

theorem listOf_textOf (texts : List String) :
    listOf textOf (.array (texts.map .str)) = .ok texts := by
  rw [listOf_eq_ok_iff]
  exact ⟨_, rfl, List.forall₂_map_left_iff.2 (List.forall₂_same.2 fun _ _ => rfl)⟩

/-- In order, the names of a description ascend. -/
theorem Meta.settled_toJson (m : Meta) :
    m.toJson.settled = .object ([("description", .str m.description),
      ("expected_ids", .array (m.expectedIds.map .str))] ++
      (m.fallback.map fun id => ("fallback", Json.str id)).toList ++
      [("name", .str m.name), ("schema", .str m.schema), ("version", .str m.version)]) := by
  have hids : (m.expectedIds.map Json.str).map Json.settled = m.expectedIds.map Json.str := by
    rw [List.map_map]
    rfl
  unfold toJson
  cases m.fallback <;>
    simp only [Option.map, Option.toList, List.cons_append, List.nil_append, List.append_nil,
      Json.settled, Json.settledItems_eq, hids, Json.settledMembers, Entries.ofList,
      List.foldl_cons, List.foldl_nil, Entries.insert, String.reduceLT, String.reduceEq,
      if_true, if_false]

theorem Meta.decode_toJson (m : Meta) : metaSchema.decode m.toJson.settled = .ok m := by
  obtain ⟨schema, name, version, description, ids, fallback⟩ := m
  have hids := listOf_textOf ids
  rw [settled_toJson]
  refine Schema.decode_object ?_ (by simp [metaSchema])
  cases fallback <;>
    simp [Schema.readAll, Schema.fields, metaSchema, hids, Except.map, textOf, optionalTextOf]

theorem Entry.decode_toJson {e : Entry} (hpattern : e.pattern.Settled) (hbody : e.body.Settled) :
    entrySchema.decode e.toJson.settled = .ok e := by
  have hsettled : e.toJson.settled =
      .object [("body", e.body), ("id", .str e.id), ("pattern", e.pattern)] := by
    unfold Json.Settled at hpattern hbody
    simp only [toJson, Json.settled, Json.settledMembers, hpattern, hbody, Entries.ofList,
      List.foldl_cons, List.foldl_nil, Entries.insert, String.reduceLT, String.reduceEq,
      if_true, if_false]
  rw [hsettled]
  rfl

/-- In order, the checksum comes first. -/
theorem Document.settled_toJson (d : Document) :
    d.toJson.settled = .object ((d.checksum.map fun s => ("checksum", Json.str s)).toList ++
      [("meta", d.info.toJson.settled),
        ("projections", .array (d.entries.map fun e => e.toJson.settled))]) := by
  unfold toJson
  cases d.checksum <;>
    simp only [Option.map, Option.toList, List.cons_append, List.nil_append, List.append_nil,
      Json.settled, Json.settledItems_eq, List.map_map, Function.comp_def, Json.settledMembers,
      Entries.ofList, List.foldl_cons, List.foldl_nil, Entries.insert, String.reduceLT,
      String.reduceEq, if_true, if_false]

/-- A seed whose patterns and bodies are in order is read back as it was written. -/
theorem Document.decode_toJson {d : Document}
    (h : ∀ e ∈ d.entries, e.pattern.Settled ∧ e.body.Settled) :
    documentSchema.decode d.toJson.settled = .ok d := by
  have hentries : listOf entrySchema.decode (.array (d.entries.map fun e => e.toJson.settled)) =
      .ok d.entries := by
    rw [listOf_eq_ok_iff]
    refine ⟨_, rfl, List.forall₂_map_left_iff.2 (List.forall₂_same.2 fun e he => ?_)⟩
    exact Entry.decode_toJson (h e he).1 (h e he).2
  have hmeta := d.info.decode_toJson
  obtain ⟨info, entries, checksum⟩ := d
  rw [settled_toJson]
  refine Schema.decode_object ?_ (by simp [documentSchema])
  cases checksum <;>
    simp [Schema.readAll, Schema.fields, documentSchema, hentries, hmeta, Except.map, textOf,
      optionalTextOf]

/-! ## How it is written -/

theorem Meta.readable_toJson (m : Meta) : m.toJson.Readable := by
  cases hfallback : m.fallback <;>
    simp [toJson, Json.readable_object_iff, Json.readable_array_iff, hfallback]

theorem Entry.readable_toJson {e : Entry} (hpattern : e.pattern.Readable)
    (hbody : e.body.Readable) : e.toJson.Readable := by
  simp [toJson, Json.readable_object_iff, hpattern, hbody]

theorem Document.readable_toJson {d : Document}
    (h : ∀ e ∈ d.entries, e.pattern.Readable ∧ e.body.Readable) : d.toJson.Readable := by
  have hentries : ∀ e ∈ d.entries, e.toJson.Readable :=
    fun e he => Entry.readable_toJson (h e he).1 (h e he).2
  have hmeta := d.info.readable_toJson
  cases hchecksum : d.checksum <;>
    simpa [toJson, Json.readable_object_iff, Json.readable_array_iff, hchecksum,
      hmeta]

theorem depth_str (s : String) : (Json.str s).depth = 0 := rfl

/-- A description has two levels. -/
theorem Meta.depth_toJson_le (m : Meta) : m.toJson.depth ≤ 2 := by
  have hids : (Json.array (m.expectedIds.map .str)).depth ≤ 1 := by
    rw [Json.depth_array_le_iff, List.forall_mem_map]
    exact fun s _ => Nat.le_refl 0
  rw [toJson, Json.depth_object_le_iff]
  cases m.fallback <;> simp [depth_str, hids]

/-- Three levels lie above the patterns and bodies of a seed that is written, and a description
nests no deeper than that. -/
theorem Document.depth_toJson_le {d : Document} {n : Nat}
    (h : ∀ e ∈ d.entries, (e.pattern : Json).depth ≤ n ∧ (e.body : Json).depth ≤ n) :
    d.toJson.depth ≤ n + 3 := by
  have hentries : (Json.array (d.entries.map (·.toJson))).depth ≤ n + 2 := by
    rw [Json.depth_array_le_iff, List.forall_mem_map]
    intro e he
    rw [Entry.toJson, Json.depth_object_le_iff]
    simp [depth_str, h e he]
  have hmeta : d.info.toJson.depth ≤ n + 2 := d.info.depth_toJson_le.trans (by omega)
  rw [toJson, Json.depth_object_le_iff]
  cases d.checksum <;> simp [depth_str, hmeta, hentries]

end TreeReduction.Seed
