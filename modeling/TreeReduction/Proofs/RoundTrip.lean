import TreeReduction.Proofs.Admission
import TreeReduction.Proofs.CanonicalText
import TreeReduction.Proofs.Nesting

set_option autoImplicit false

/-!
# Reading a value back

The document of a value is in order already (`Value.settled_toJson`), and reading it under limits
that the value keeps gives the value (`Value.ofSettled_toJson`): the checks of the way down are
those that `Value.check` makes. So a canonical text is read as the value it was written for
(`Value.parse_canonical`). The other way round, a document in order is the document of the value
that it was read as, and this keeps the limits (`Value.ofSettled_eq_ok_iff`).
-/

namespace TreeReduction.Value

/-! ## The document of a value -/

/-- The document of a value nests as deep as the value does. -/
theorem depth_toJson (v : Value) : v.toJson.depth = v.depth := by
  induction v using induct with
  | scalar v hv =>
    cases v with
    | float x => cases hx : x.isFinite <;> simp [toJson, hx, Json.depth, depth]
    | list items => simp [isScalar] at hv
    | map entries => simp [isScalar] at hv
    | _ => rfl
  | list items ih =>
    have hitems : Json.depthItems (toJsonItems items) = depthItems items := by
      induction items with
      | nil => rfl
      | cons x rest ihrest =>
        rw [List.forall_mem_cons] at ih
        rw [toJsonItems, Json.depthItems, depthItems, ih.1, ihrest ih.2]
    rw [toJson, Json.depth, depth, hitems]
  | map entries ih =>
    have hentries : Json.depthMembers (toJsonMembers entries) = depthEntries entries := by
      induction entries with
      | nil => rfl
      | cons p rest ihrest =>
        rw [List.forall_mem_cons] at ih
        rw [toJsonMembers, Json.depthMembers, depthEntries, ih.1, ihrest ih.2]
    rw [toJson, Json.depth, depth, hentries]

/-- The members of the document of an ordered value stand in order, each name once. -/
theorem settled_toJson {v : Value} (h : v.Ordered) : v.toJson.settled = v.toJson := by
  induction v using induct with
  | scalar v hv =>
    cases v with
    | float x => cases hx : x.isFinite <;> simp [toJson, hx, Json.settled]
    | list items => simp [isScalar] at hv
    | map entries => simp [isScalar] at hv
    | _ => rfl
  | list items ih =>
    rw [ordered_list_iff] at h
    rw [toJson, Json.settled, Json.settledItems_eq, toJsonItems_eq, List.map_map]
    exact congrArg Json.array (List.map_congr_left fun x hx => ih x hx (h x hx))
  | map entries ih =>
    rw [ordered_map_iff] at h
    have hordered : (Entries.mapValues toJson entries).Ordered :=
      (Entries.ordered_mapValues_iff toJson entries).2 h.1
    have hvalues : Entries.mapValues Json.settled (Entries.mapValues toJson entries) =
        Entries.mapValues toJson entries := by
      rw [Entries.mapValues, Entries.mapValues, List.map_map]
      exact List.map_congr_left fun p hp => congrArg (p.1, ·) (ih p hp (h.2 p hp))
    rw [toJson, Json.settled, Json.settledMembers_eq, toJsonMembers_eq, hvalues,
      Entries.ofList_of_ordered hordered]

/-! ## Reading it under limits -/

theorem ofItems_toJsonItems {limits : Limits} {level : Nat} {items : List Value}
    (h : ∀ x ∈ items, ofSettled limits level x.toJson = .ok x) :
    ofItems limits level (toJsonItems items) = .ok items := by
  induction items with
  | nil => rfl
  | cons x rest ih =>
    rw [List.forall_mem_cons] at h
    rw [toJsonItems, ofItems, h.1, ih h.2]
    rfl

theorem ofMembers_toJsonMembers {limits : Limits} {level : Nat} {entries : List (String × Value)}
    (h : ∀ p ∈ entries, ofSettled limits level (p.2 : Value).toJson = .ok p.2) :
    ofMembers limits level (toJsonMembers entries) = .ok entries := by
  induction entries with
  | nil => rfl
  | cons p rest ih =>
    rw [List.forall_mem_cons] at h
    rw [toJsonMembers, ofMembers, h.1, ih h.2]
    rfl

/-- The document of an integer is read as that integer. -/
theorem ofNumber_toInt (limits : Limits) (n : Int64) :
    ofNumber limits (.integer n.toInt) = .ok (.int n) := by
  have hmin := n.le_toInt
  have hmax := n.toInt_lt
  rw [ofNumber, if_pos ⟨by omega, by omega⟩, Int64.ofInt_toInt]

/-- A value that passes the check is read back from its document: the checks are the same, only the
order in which they are made is not. -/
theorem ofSettled_toJson {limits : Limits} {level : Nat} {v : Value}
    (h : v.checkAt limits level = .ok ()) : ofSettled limits level v.toJson = .ok v := by
  induction v using induct generalizing level with
  | scalar v hv =>
    cases v with
    | int n => exact ofNumber_toInt limits n
    | float x =>
      have hcheck : limits.checkFloat x = .ok () := h
      have hfinite := ((limits.checkFloat_eq_ok_iff x).1 hcheck).1
      rw [toJson, if_pos hfinite, ofSettled, ofNumber, hcheck]
    | list items => simp [isScalar] at hv
    | map entries => simp [isScalar] at hv
    | _ => rfl
  | list items ih =>
    rw [checkAt] at h
    split at h
    · simp at h
    · rename_i hcontainer
      rw [checkItems_eq_ok_iff] at h
      rw [toJson, ofSettled, toJsonItems_eq, List.length_map, hcontainer]
      simp only
      rw [← toJsonItems_eq, ofItems_toJsonItems fun x hx => ih x hx (h x hx)]
      rfl
  | map entries ih =>
    rw [checkAt] at h
    split at h
    · simp at h
    · rename_i hcontainer
      rw [checkEntries_eq, checkItems_eq_ok_iff, List.forall_mem_map] at h
      have hlength : (toJsonMembers entries).length = entries.length := by
        rw [toJsonMembers_eq, Entries.mapValues, List.length_map]
      rw [toJson, ofSettled, hlength, hcontainer]
      simp only
      rw [ofMembers_toJsonMembers fun p hp => ih p hp (h p hp)]
      rfl

/-- A value within limits is read back from its document. -/
theorem ofJson_toJson {limits : Limits} {v : Value} (hordered : v.Ordered)
    (hcheck : v.check limits = .ok ()) : ofJson limits v.toJson = .ok v := by
  rw [ofJson, settled_toJson hordered]
  exact ofSettled_toJson hcheck

/-! ## The document of what was read -/

theorem ofItems_eq (limits : Limits) (level : Nat) (items : List Json) :
    ofItems limits level items = items.mapM (ofSettled limits level) := by
  induction items with
  | nil => rfl
  | cons x rest ih =>
    rw [ofItems, List.mapM_cons, ih]
    cases ofSettled limits level x with
    | error e => rfl
    | ok v => cases rest.mapM (ofSettled limits level) <;> rfl

theorem ofMembers_eq (limits : Limits) (level : Nat) (members : List (String × Json)) :
    ofMembers limits level members =
      members.mapM fun m => (ofSettled limits level m.2).map (m.1, ·) := by
  induction members with
  | nil => rfl
  | cons m rest ih =>
    rw [ofMembers, List.mapM_cons, ih]
    cases ofSettled limits level m.2 with
    | error e => rfl
    | ok v => cases rest.mapM fun m => (ofSettled limits level m.2).map (m.1, ·) <;> rfl

/-- Nothing in a document in order is lost when it is read: it is the document of its value, which
keeps the limits that it was read under. -/
theorem of_ofSettled {limits : Limits} {level : Nat} {json : Json} {v : Value}
    (h : ofSettled limits level json = .ok v) :
    v.toJson = json ∧ v.checkAt limits level = .ok () := by
  induction json using Json.induct generalizing level v with
  | null | bool | str => exact Except.ok.inj h ▸ ⟨rfl, rfl⟩
  | number n =>
    cases n with
    | integer n =>
      rw [ofSettled, ofNumber] at h
      split at h
      · rename_i hrange
        have hn : (Int64.ofInt n).toInt = n :=
          Int64.toInt_ofInt_of_le (by omega) (by omega)
        exact Except.ok.inj h ▸ ⟨by rw [toJson, hn], rfl⟩
      · simp at h
    | float x =>
      rw [ofSettled, ofNumber] at h
      split at h
      · simp at h
      · rename_i hcheck
        have hfinite := ((limits.checkFloat_eq_ok_iff x).1 hcheck).1
        exact Except.ok.inj h ▸ ⟨by rw [toJson, if_pos hfinite], hcheck⟩
  | array items ih =>
    rw [ofSettled] at h
    split at h
    · simp at h
    · rename_i hcontainer
      obtain ⟨vs, hvs, rfl⟩ := map_eq_ok_iff.1 h
      rw [ofItems_eq] at hvs
      obtain ⟨rfl, hchecks⟩ := of_mapM_eq_ok (fun x hx v => ih x hx) hvs
      rw [List.length_map] at hcontainer
      rw [toJson, toJsonItems_eq, checkAt, hcontainer]
      exact ⟨rfl, (checkItems_eq_ok_iff ..).2 hchecks⟩
  | object members ih =>
    rw [ofSettled] at h
    split at h
    · simp at h
    · rename_i hcontainer
      obtain ⟨entries, hentries, rfl⟩ := map_eq_ok_iff.1 h
      have hmember : ∀ m ∈ members, ∀ p : String × Value,
          (ofSettled limits (level + 1) m.2).map (m.1, ·) = .ok p →
            (p.1, p.2.toJson) = m ∧ p.2.checkAt limits (level + 1) = .ok () := by
        intro m hm p hp
        obtain ⟨v, hv, rfl⟩ := map_eq_ok_iff.1 hp
        obtain ⟨hjson, hcheck⟩ := ih m hm hv
        exact ⟨Prod.ext rfl hjson, hcheck⟩
      rw [ofMembers_eq] at hentries
      obtain ⟨rfl, hchecks⟩ := of_mapM_eq_ok hmember hentries
      rw [List.length_map] at hcontainer
      rw [toJson, toJsonMembers_eq, checkAt, hcontainer]
      refine ⟨rfl, ?_⟩
      rw [checkEntries_eq, checkItems_eq_ok_iff, List.forall_mem_map]
      exact hchecks

/-- A document in order is read as the value whose document it is, if this keeps the limits. -/
theorem ofSettled_eq_ok_iff {limits : Limits} {level : Nat} {json : Json} {v : Value} :
    ofSettled limits level json = .ok v ↔ v.toJson = json ∧ v.checkAt limits level = .ok () := by
  refine ⟨of_ofSettled, ?_⟩
  rintro ⟨rfl, hcheck⟩
  exact ofSettled_toJson hcheck

/-! ## Reading its canonical text -/

/-- The canonical text of a value without floating-point numbers, within limits and not too deep for
the reader, is read as that value and nothing else. The entries of its maps stand in key order, as
those of every value do. -/
theorem parse_canonical {limits : Limits} {v : Value} (hordered : v.Ordered) (hfree : v.FloatFree)
    (hdepth : v.depth ≤ 127) (hcheck : v.check limits = .ok ()) :
    parse limits v.canonical = .ok v := by
  have hread : Json.parse? v.canonical = some v.toJson := by
    rw [canonical_eq_compact hfree.finiteFloats]
    exact Json.parse?_compact (readable_toJson hfree) (by rwa [depth_toJson])
  rw [parse, hread]
  exact ofJson_toJson hordered hcheck

/-- Both ends of the integers, empty containers, and keys and texts that have to be escaped. -/
theorem parse_canonical_escaped :
    let limits : Limits := { maxDepth := 2, maxWidth := 4 }
    let v : Value := .map [("", .list []), ("\x00\n", .int Int64.minValue),
      ("\"\\", .list [.str "\x7f\u00e9", .null, .int Int64.maxValue]), ("a", .map [])]
    v.Ordered ∧ v.FloatFree ∧ v.depth ≤ 127 ∧ v.check limits = .ok () ∧
      parse limits v.canonical = .ok v := by
  intro limits v
  have hordered : v.Ordered := by decide
  have hfree : v.FloatFree := by decide
  have hdepth : v.depth ≤ 127 := by decide
  have hcheck : v.check limits = .ok () := rfl
  exact ⟨hordered, hfree, hdepth, hcheck, parse_canonical hordered hfree hdepth hcheck⟩

end TreeReduction.Value
