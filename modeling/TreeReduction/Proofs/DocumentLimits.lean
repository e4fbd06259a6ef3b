import TreeReduction.Proofs.Conversions
import TreeReduction.Proofs.Measuring
import TreeReduction.Proofs.RoundTrip
import TreeReduction.Proofs.WiderLimits

set_option autoImplicit false

/-!
# Limits of documents

A document is read with the limits checked on the way, and a value is checked after it was read.
Both let in the same: what a document is read as under limits is what it is read as under any wider
ones, if that passes the check (`Value.ofJson_within_iff`). The limits do not come into the value
that is read, which is the one whose document this is (`Value.ofJson_eq_ok_iff`).

Reading goes through the children of a container from the first to the last and the check from the
last to the first, and so they may report different violations of one document.

Both ways between documents and values are conversions by tasks (`Value.reading`, `Value.writing`).
-/

namespace TreeReduction.Value

/-! ## Reading by tasks -/

/-- Members are read by their values, which then get their names back. -/
theorem ofMembers_eq_zip (limits : Limits) (level : Nat) (members : Entries Json) :
    ofMembers limits level members =
      (members.values.mapM (ofSettled limits level)).map (members.keys.zip ·) := by
  induction members with
  | nil => rfl
  | cons m rest ih =>
    rw [ofMembers, Entries.values, List.map_cons, List.mapM_cons, ih, Entries.values]
    cases ofSettled limits level m.2 with
    | error e => rfl
    | ok v => cases (rest.map (·.2)).mapM (ofSettled limits level) <;> rfl

/-- The members of an object are read in the order of their names, each of which counts once. -/
theorem ofMembers_settledMembers (limits : Limits) (level : Nat) (members : List (String × Json)) :
    ofMembers limits level (Entries.ofList (Json.settledMembers members)) =
      ((Entries.ofList members).values.mapM fun x => ofSettled limits level x.settled).map
        ((Entries.ofList members).keys.zip ·) := by
  rw [Json.settledMembers_eq, Entries.ofList_mapValues, ofMembers_eq_zip, Entries.keys_mapValues,
    Entries.values_mapValues, List.mapM_map]
  rfl

/-- Reads a document: a container is checked before its children are read, those of an object in the
order of their names. -/
def reading (limits : Limits) : Conversion Json Value Violation where
  find
    | .null, _ => .ok (.made .null)
    | .bool b, _ => .ok (.made (.bool b))
    | .number n, _ => (ofNumber limits n).map .made
    | .str s, _ => .ok (.made (.str s))
    | .array items, level =>
      (limits.checkContainer level items.length).map fun _ => .parts items .list
    | .object members, level =>
      let sorted := Entries.ofList members
      (limits.checkContainer level sorted.length).map fun _ =>
        .parts sorted.values fun vs => .map (Entries.ofList (sorted.keys.zip vs))
  size := Json.depth
  size_lt := by
    intro json level children build h x hx
    refine Json.depth_lt_of_mem_children ?_
    cases json with
    | number n => simp [map_eq_ok_iff] at h
    | array items =>
      obtain ⟨_, -, he⟩ := map_eq_ok_iff.1 h
      rw [← (Found.parts.inj he).1] at hx
      exact hx
    | object members =>
      obtain ⟨_, -, he⟩ := map_eq_ok_iff.1 h
      rw [← (Found.parts.inj he).1] at hx
      obtain ⟨p, hp, rfl⟩ := List.mem_map.1 hx
      exact List.mem_map_of_mem (Entries.mem_of_mem_ofList hp)
    | _ => simp at h

theorem reading_solvedBy (limits : Limits) :
    (reading limits).SolvedBy fun json level => ofSettled limits level json.settled := by
  intro json level
  cases json with
  | null | bool | str => rfl
  | number n =>
    simp only [reading, Json.settled, ofSettled]
    cases ofNumber limits n <;> rfl
  | array items =>
    simp only [reading, Json.settled, ofSettled, ofItems_eq, Json.settledItems_eq, List.length_map,
      List.mapM_map]
    cases limits.checkContainer level items.length <;> rfl
  | object members =>
    have hlength : (Entries.ofList (Json.settledMembers members)).length =
        (Entries.ofList members).length := by
      rw [Json.settledMembers_eq, Entries.ofList_mapValues, Entries.mapValues, List.length_map]
    simp only [reading, Json.settled, ofSettled, hlength, ofMembers_settledMembers]
    cases limits.checkContainer level (Entries.ofList members).length with
    | error e => rfl
    | ok _ =>
      simp only [Except.map, Except.bind]
      cases hread : (Entries.ofList members).values.mapM fun x =>
          ofSettled limits (level + 1) x.settled with
      | error e => rfl
      | ok vs =>
        have hordered : Entries.Ordered ((Entries.ofList members).keys.zip vs) := by
          refine Entries.ordered_zip (Entries.ordered_ofList members) ?_
          rw [← (mapM_eq_ok_iff.1 hread).length_eq, Entries.values, List.length_map]
        exact congrArg (Except.ok ∘ Value.map) (Entries.ofList_of_ordered hordered).symm

/-- Reading by tasks is reading. -/
theorem convert_reading (limits : Limits) (json : Json) :
    (reading limits).convert json = (ofJson limits json).map some :=
  Conversion.convert_eq (reading_solvedBy limits) json

/-! ## Writing by tasks -/

/-- Makes the document of a value. -/
def writing : Conversion Value Json Empty where
  find
    | .list items, _ => .ok (.parts items .array)
    | .map entries, _ => .ok <|
      .parts (Entries.values entries) fun docs =>
        .object (Entries.ofList ((Entries.keys entries).zip docs))
    | v, _ => .ok (.made v.toJson)
  size := depth
  size_lt := by
    intro v level children build h x hx
    refine depth_lt_of_mem_children ?_
    cases v with
    | list items =>
      rw [← (Found.parts.inj (Except.ok.inj h)).1] at hx
      exact hx
    | map entries =>
      rw [← (Found.parts.inj (Except.ok.inj h)).1] at hx
      exact hx
    | _ => simp at h

theorem mapM_ok {α β ε : Type} (f : α → β) (xs : List α) :
    xs.mapM (fun x => (.ok (f x) : Except ε β)) = .ok (xs.map f) :=
  List.mapM_pure

theorem writing_solvedBy : writing.SolvedBy fun v _ => .ok v.toJson.settled := by
  intro v level
  cases v with
  | null | bool | int | str => rfl
  | float x => cases hx : x.isFinite <;> simp [writing, toJson, hx, Json.settled, Except.bind]
  | list items =>
    simp only [writing, Except.bind, mapM_ok, Except.map, toJson, Json.settled,
      Json.settledItems_eq, toJsonItems_eq, List.map_map, Function.comp_def]
  | map entries =>
    have hzip : (Entries.keys entries).zip
          ((Entries.values entries).map fun x => x.toJson.settled) =
        Entries.mapValues (fun x => x.toJson.settled) entries := by
      rw [Entries.keys, Entries.values, List.map_map, List.zip_map']
      rfl
    simp only [writing, Except.bind, mapM_ok, Except.map, toJson, Json.settled, hzip,
      Json.settledMembers_eq, toJsonMembers_eq]
    simp only [Entries.mapValues, List.map_map, Function.comp_def]

/-- Making the document of a value by tasks comes to its document, put in order. -/
theorem convert_writing (v : Value) : writing.convert v = .ok (some v.toJson.settled) :=
  Conversion.convert_eq writing_solvedBy v

/-! ## What limits let in -/

theorem ofJson_eq_ok_iff {limits : Limits} {json : Json} {v : Value} :
    ofJson limits json = .ok v ↔ v.toJson = json.settled ∧ v.check limits = .ok () :=
  ofSettled_eq_ok_iff

theorem check_of_within {limits wider : Limits} (h : limits.Within wider) {v : Value}
    (hv : v.check limits = .ok ()) : v.check wider = .ok () := by
  obtain ⟨hdepth, hwidth, hfinite, hfloats⟩ := (check_eq_ok_iff limits v).1 hv
  exact (check_eq_ok_iff wider v).2 ⟨hdepth.trans h.depth_le, hwidth.trans h.width_le, hfinite,
    hfloats.imp_left h.floats⟩

/-- A document is read as a value under limits exactly when it is read as that value under wider
ones and the value passes the check; and the value is the one whose document this is. Reading and
checking by tasks do the same. -/
theorem ofJson_within_iff {limits wider : Limits} (h : limits.Within wider) (json : Json) :
    (∀ v, ofJson limits json = .ok v ↔ ofJson wider json = .ok v ∧ v.check limits = .ok ()) ∧
    (∀ v, ofJson wider json = .ok v ↔ v.toJson = json.settled ∧ v.check wider = .ok ()) ∧
    (∀ bounds, (reading bounds).convert json = (ofJson bounds json).map some) ∧
    ∀ v : Value, v.checked limits = v.check limits := by
  refine ⟨fun v => ?_, fun v => ofJson_eq_ok_iff, fun bounds => convert_reading bounds json,
    checked_eq limits⟩
  rw [ofJson_eq_ok_iff, ofJson_eq_ok_iff]
  constructor
  · rintro ⟨hjson, hcheck⟩
    exact ⟨⟨hjson, check_of_within h hcheck⟩, hcheck⟩
  · rintro ⟨⟨hjson, -⟩, hcheck⟩
    exact ⟨hjson, hcheck⟩

/-- The first child lies too deep and the last is too wide. The reader comes to the first, the check
to the last. -/
theorem ofJson_within_iff_faults :
    let limits : Limits := { maxDepth := 2, maxWidth := 2 }
    let wider : Limits := ⟨2 ^ 64 - 1, 2 ^ 64 - 1, true⟩
    let json : Json := .array [.array [.array []],
      .object [("c", .number (.integer 1)), ("b", .null), ("a", .bool true)]]
    let v : Value := .list [.list [.list []], .map [("a", .bool true), ("b", .null), ("c", .int 1)]]
    limits.Within wider ∧ ofJson wider json = .ok v ∧
      v.check limits = .error (.widthExceeded 3 2) ∧
      (reading limits).convert json = .error (.depthExceeded 3 2) ∧
      ¬ofJson limits json = .ok v := by
  intro limits wider json v
  have hwithin : limits.Within wider := ⟨by decide, by decide, by decide⟩
  have hcheck : v.check limits = .error (.widthExceeded 3 2) := rfl
  obtain ⟨hiff, hdocument, hreading, -⟩ := ofJson_within_iff hwithin json
  refine ⟨hwithin, (hdocument v).2 ⟨rfl, rfl⟩, hcheck, (hreading limits).trans rfl, fun hread => ?_⟩
  have hpass := ((hiff v).1 hread).2
  simp [hcheck] at hpass

end TreeReduction.Value
