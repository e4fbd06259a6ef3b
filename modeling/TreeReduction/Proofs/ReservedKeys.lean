import TreeReduction.Proofs.Respelling

set_option autoImplicit false

/-!
# Reserved keys and spelling

Values are searched for reserved keys as they are spelled, and a linked map spells its keys as
texts. So a linked spelling always passes, whatever keys the map has, and the search of a value
tells nothing of the keys of its linked maps. These come to light when chains are turned into maps:
the native spelling of a value has a key exactly when a map of the value has it or a linked map
spells it (`Value.lacks_toNative_iff`). Both kinds of keys taken together do not depend on the
spelling (`Value.everywhere_avoids_toLinked_iff`).

What a chain consists of, its items aside, is said by `Linked.Inert.everywhere_tagged?_iff`: maps
with the keys of chains, texts and `null`.
-/

namespace TreeReduction

open Value (Everywhere)

namespace Linked

/-! ## The nodes of chains -/

/-- A property of nodes that scalars and links have whatever they are or hold. -/
structure Inert (P : Value → Prop) : Prop where
  scalar : ∀ v : Value, v.isScalar = true → P v
  link : ∀ head tail : Value, P (link head tail)

section Nodes

variable {P : Value → Prop} (hP : Inert P)

include hP

theorem Inert.everywhere_scalar {v : Value} (h : v.isScalar = true) : v.Everywhere P :=
  (Value.everywhere_scalar_iff h).2 (hP.scalar v h)

theorem Inert.everywhere_link_iff (head tail : Value) :
    (Linked.link head tail).Everywhere P ↔ head.Everywhere P ∧ tail.Everywhere P := by
  have hself : P (.map [(headKey, head), (tailKey, tail)]) := hP.link head tail
  simp [Linked.link, Value.everywhere_map_iff, hself]

/-- It holds everywhere in a chain if it does in all items. -/
theorem Inert.everywhere_items?_iff {v : Value} {items : List Value} (h : items? v = some items) :
    v.Everywhere P ↔ ∀ x ∈ items, x.Everywhere P := by
  fun_induction items? v generalizing items with
  | case1 =>
    simp only [Option.some.injEq] at h
    subst h
    exact iff_of_true (hP.everywhere_scalar rfl) (by simp)
  | case2 hd item tl rest hk ih =>
    obtain ⟨its, hits, rfl⟩ := Option.map_eq_some_iff.1 h
    obtain ⟨rfl, rfl⟩ := hk
    rw [List.forall_mem_cons, ← ih hits]
    exact hP.everywhere_link_iff item rest
  | case3 => simp at h
  | case4 => simp at h

theorem Inert.everywhere_pair?_iff {v : Value} {p : String × Value} (h : pair? v = some p) :
    v.Everywhere P ↔ p.2.Everywhere P := by
  unfold pair? at h
  split at h
  · rename_i hd key tl hd' value tl'
    split at h
    · rename_i hk
      obtain ⟨rfl, rfl, rfl, rfl⟩ := hk
      simp only [Option.some.injEq] at h
      subst h
      have hkey : (Value.str key).Everywhere P := hP.everywhere_scalar rfl
      have hnull : Value.null.Everywhere P := hP.everywhere_scalar rfl
      have hinner := (hP.everywhere_link_iff value .null).trans (and_iff_left hnull)
      exact (hP.everywhere_link_iff _ _).trans ((and_iff_right hkey).trans hinner)
    · simp at h
  · simp at h

theorem Inert.everywhere_mapM_pair?_iff {items : List Value} {pairs : List (String × Value)}
    (h : items.mapM pair? = some pairs) :
    (∀ x ∈ items, x.Everywhere P) ↔ ∀ p ∈ pairs, (p.2 : Value).Everywhere P := by
  induction items generalizing pairs with
  | nil =>
    simp only [List.mapM_nil, Option.pure_def, Option.some.injEq] at h
    simp [← h]
  | cons x rest ih =>
    simp only [List.mapM_cons, Option.bind_eq_bind, Option.pure_def, Option.bind_eq_some_iff,
      Option.some.injEq] at h
    obtain ⟨p, hp, ps, hps, rfl⟩ := h
    rw [List.forall_mem_cons, List.forall_mem_cons, ih hps, hP.everywhere_pair?_iff hp]

/-- It holds everywhere in the pairs of a linked map if it does in all that the keys hold. -/
theorem Inert.everywhere_entries?_iff {items : List Value} {entries : List (String × Value)}
    (h : entries? items = some entries) :
    (∀ x ∈ items, x.Everywhere P) ↔ ∀ p ∈ entries, (p.2 : Value).Everywhere P := by
  unfold entries? at h
  split at h
  · rename_i pairs hpairs
    split at h
    · rename_i hnodup
      simp only [Option.some.injEq] at h
      subst h
      rw [hP.everywhere_mapM_pair?_iff hpairs]
      simp only [(Entries.ofList_perm hnodup).mem_iff]
    · simp at h
  · simp at h

/-- It holds everywhere in a tagged chain if it holds of the first map and everywhere in the
items. -/
theorem Inert.everywhere_tagged?_iff {entries : List (String × Value)} {tag : String}
    {items : List Value} (h : tagged? entries = some (tag, items)) :
    (Value.map entries).Everywhere P ↔ P (.map entries) ∧ ∀ x ∈ items, x.Everywhere P := by
  have hstr : ∀ s, (Value.str s).Everywhere P := fun _ => hP.everywhere_scalar rfl
  rw [Value.everywhere_map_iff]
  refine and_congr_right fun _ => ?_
  unfold tagged? at h
  split at h
  · split at h
    · simp only [Option.some.injEq, Prod.mk.injEq] at h
      simp [← h.2, hstr]
    · simp at h
  · split at h
    · obtain ⟨its, hits, he⟩ := Option.map_eq_some_iff.1 h
      simp only [Prod.mk.injEq] at he
      simp [← he.2, hstr, hP.everywhere_items?_iff hits]
    · simp at h
  · simp at h

end Nodes

/-! ## The keys of chains -/

/-- The keys that chains are made of. -/
def chainKeys : List String :=
  [typeKey, headKey, tailKey]

theorem mem_chainKeys_of_tagged? {entries : List (String × Value)} {tag : String}
    {items : List Value} (h : tagged? entries = some (tag, items)) {p : String × Value}
    (hp : p ∈ entries) : p.1 ∈ chainKeys := by
  unfold tagged? at h
  split at h
  · split at h
    · rename_i hk
      simp only [List.mem_singleton] at hp
      simp [hp, hk, chainKeys]
    · simp at h
  · split at h
    · rename_i hk
      simp only [List.mem_cons, List.not_mem_nil, or_false] at hp
      rcases hp with rfl | rfl | rfl <;> simp [hk, chainKeys]
    · simp at h
  · simp at h

section Key

variable {key : String} (hkey : key ∉ chainKeys)

include hkey

theorem inert_lacks :
    Inert fun u => ∀ entries, u = .map entries → ∀ p ∈ entries, p.1 ≠ key where
  scalar := by
    rintro _ h _ rfl
    simp [Value.isScalar] at h
  link := by
    simp only [chainKeys, List.mem_cons, List.not_mem_nil, or_false, not_or] at hkey
    rintro head tail _ ⟨⟩
    simp [Ne.symm hkey.2.1, Ne.symm hkey.2.2]

theorem ne_of_tagged? {entries : List (String × Value)} {tag : String} {items : List Value}
    (h : tagged? entries = some (tag, items)) {p : String × Value} (hp : p ∈ entries) :
    p.1 ≠ key := by
  rintro rfl
  exact hkey (mem_chainKeys_of_tagged? h hp)

theorem lacks_tagged_iff (tag : String) (items : List Value) :
    (tagged tag items).Lacks key ↔ ∀ x ∈ items, x.Lacks key := by
  obtain ⟨entries, hentries, htagged⟩ := tagged_eq tag items
  rw [hentries, Value.Lacks, (inert_lacks hkey).everywhere_tagged?_iff htagged, and_iff_right]
  · rfl
  · rintro _ ⟨⟩ p hp
    exact ne_of_tagged? hkey htagged hp

theorem lacks_pair_iff (k : String) (value : Value) :
    (pair k value).Lacks key ↔ value.Lacks key :=
  (inert_lacks hkey).everywhere_pair?_iff (pair?_pair k value)

end Key

end Linked

namespace Value

open Linked (chainKeys)

/-! ## The keys that linked maps spell -/

/-- The keys that a node spells as a linked map. -/
def linkedKeys : Value → List String
  | .map entries =>
    match Linked.view? entries with
    | some (.dictionary es) => Entries.keys es
    | _ => []
  | _ => []

/-- No linked map of a tree spells a reserved key. -/
def SpellsNoReserved (v : Value) : Prop :=
  ∀ key ∈ reservedKeys, v.Everywhere fun u => key ∉ u.linkedKeys

instance (v : Value) : Decidable v.SpellsNoReserved :=
  inferInstanceAs (Decidable (∀ key ∈ reservedKeys, v.Everywhere fun u => key ∉ u.linkedKeys))

/-- A node neither has a key nor spells it. -/
def Avoids (key : String) (u : Value) : Prop :=
  (∀ entries, u = .map entries → ∀ p ∈ entries, p.1 ≠ key) ∧ key ∉ u.linkedKeys

theorem everywhere_avoids_iff (key : String) (v : Value) :
    v.Everywhere (Avoids key) ↔ v.Lacks key ∧ v.Everywhere fun u => key ∉ u.linkedKeys :=
  ⟨fun h => ⟨fun u hu => (h u hu).1, fun u hu => (h u hu).2⟩,
    fun h u hu => ⟨h.1 u hu, h.2 u hu⟩⟩

theorem avoids_map_iff_of_view?_eq_none {key : String} {entries : List (String × Value)}
    (h : Linked.view? entries = none) :
    (Value.map entries).Avoids key ↔ ∀ p ∈ entries, p.1 ≠ key := by
  simp [Avoids, linkedKeys, h]

section Key

variable {key : String} (hkey : key ∉ chainKeys)

include hkey

theorem inert_avoids : Linked.Inert (Avoids key) where
  scalar := by
    intro v h
    exact ⟨(Linked.inert_lacks hkey).scalar v h, by cases v <;> simp_all [linkedKeys, isScalar]⟩
  link := by
    intro head tail
    have hview : Linked.view? [(Linked.headKey, head), (Linked.tailKey, tail)] = none :=
      Linked.view?_of_untagged (by simp [Linked.headKey, Linked.tailKey, Linked.typeKey])
    refine ⟨(Linked.inert_lacks hkey).link head tail, ?_⟩
    simp [Linked.link, linkedKeys, hview]

theorem avoids_tagged?_iff {es : List (String × Value)} {tag : String} {items : List Value}
    (h : Linked.tagged? es = some (tag, items)) :
    (Value.map es).Avoids key ↔ key ∉ (Value.map es).linkedKeys := by
  refine and_iff_right ?_
  rintro _ ⟨⟩ p hp
  exact Linked.ne_of_tagged? hkey h hp

/-- A list, however it is spelled, avoids a key throughout if all items do. -/
theorem everywhere_avoids_sequence_iff {v : Value} {items : List Value}
    (h : v.view = .sequence items) :
    v.Everywhere (Avoids key) ↔ ∀ x ∈ items, x.Everywhere (Avoids key) := by
  rcases view_eq_sequence_cases h with rfl | ⟨es, tag, rfl, hview, htagged⟩
  · rw [everywhere_list_iff, and_iff_right]
    simp [Avoids, linkedKeys]
  · rw [(inert_avoids hkey).everywhere_tagged?_iff htagged, avoids_tagged?_iff hkey htagged,
      and_iff_right]
    simp [linkedKeys, hview]

/-- A map, however it is spelled, avoids a key throughout if it is none of its own and all that they
hold avoids it. -/
theorem everywhere_avoids_dictionary_iff {v : Value} {entries : List (String × Value)}
    (h : v.view = .dictionary entries) :
    v.Everywhere (Avoids key) ↔
      (∀ p ∈ entries, p.1 ≠ key) ∧ ∀ p ∈ entries, (p.2 : Value).Everywhere (Avoids key) := by
  rcases view_eq_dictionary_cases h with
    ⟨rfl, hview⟩ | ⟨es, tag, items, rfl, hview, htagged, hentries⟩
  · rw [everywhere_map_iff, avoids_map_iff_of_view?_eq_none hview]
  · rw [(inert_avoids hkey).everywhere_tagged?_iff htagged,
      (inert_avoids hkey).everywhere_entries?_iff hentries, avoids_tagged?_iff hkey htagged]
    simp only [linkedKeys, hview, Entries.not_mem_keys_iff]

end Key

/-! ## Native spelling -/

/-- The native spelling has a key exactly when a map of the value has it or a linked map spells it:
no other key is made and none is lost. -/
theorem lacks_toNative_iff {key : String} (hkey : key ∉ chainKeys) (v : Value) :
    v.toNative.Lacks key ↔ v.Everywhere (Avoids key) := by
  unfold toNative
  induction v using viewInduct with
  | site name =>
    have hview : (site name).view = .dictionary [(variableKey, .str name)] :=
      view_map_of_untagged (by simp [variableKey, Linked.typeKey])
    have hname : (Value.str name).Everywhere (Avoids key) :=
      (inert_avoids hkey).everywhere_scalar rfl
    have hlacks : (Value.str name).Lacks key := lacks_of_isScalar key rfl
    rw [respell_site, everywhere_avoids_dictionary_iff hkey hview, site, lacks_map_iff]
    simp [hname, hlacks]
  | leaf v hv =>
    rw [respell_of_isScalar hv]
    exact iff_of_true (lacks_of_isScalar key hv)
      ((inert_avoids hkey).everywhere_scalar hv)
  | sequence v items hname hview ih =>
    rw [respell_of_sequence hname hview, lacks_list_iff, List.forall_mem_map,
      everywhere_avoids_sequence_iff hkey hview]
    exact forall₂_congr ih
  | dictionary v entries hname hview ih =>
    rw [respell_of_dictionary hname hview, lacks_map_iff,
      everywhere_avoids_dictionary_iff hkey hview, Entries.mapValues, List.forall_mem_map,
      List.forall_mem_map]
    exact and_congr_right' (forall₂_congr ih)

/-! ## Linked spelling -/

/-- A linked spelling has only the keys of chains and of variable sites. -/
theorem lacks_toLinked {key : String} (hkey : key ∉ chainKeys) (hsite : key ≠ variableKey)
    (v : Value) : v.toLinked.Lacks key := by
  induction v using viewInduct with
  | site name =>
    rw [toLinked_site, site, lacks_map_iff]
    simp [hsite.symm, lacks_of_isScalar key (v := .str name) rfl]
  | leaf v hv =>
    rw [toLinked_of_isScalar hv]
    exact lacks_of_isScalar key hv
  | sequence v items hname hview ih =>
    rw [toLinked_of_sequence hname hview, Linked.ofItems, Linked.lacks_tagged_iff hkey,
      List.forall_mem_map]
    exact ih
  | dictionary v entries hname hview ih =>
    rw [toLinked_of_dictionary hname hview, Linked.ofEntries, Linked.lacks_tagged_iff hkey,
      List.forall_mem_map, Entries.mapValues, List.forall_mem_map]
    exact fun p hp => (Linked.lacks_pair_iff hkey _ _).2 (ih p hp)

/-- Respelling hides no key and brings none to light. -/
theorem everywhere_avoids_toLinked_iff {key : String} (hkey : key ∉ chainKeys) {v : Value}
    (hv : v.Ordered) :
    v.toLinked.Everywhere (Avoids key) ↔ v.Everywhere (Avoids key) := by
  induction v using viewInduct with
  | site name => rw [toLinked_site]
  | leaf v hscalar => rw [toLinked_of_isScalar hscalar]
  | sequence v items hname hview ih =>
    rw [toLinked_of_sequence hname hview, everywhere_avoids_sequence_iff hkey (view_ofItems _),
      everywhere_avoids_sequence_iff hkey hview, List.forall_mem_map]
    exact forall₂_congr fun x hx => ih x hx (hv.part (part_of_mem_sequence hview hx))
  | dictionary v entries hname hview ih =>
    have hordered : Entries.Ordered (Entries.mapValues toLinked entries) :=
      (Entries.ordered_mapValues_iff _ _).2 (ordered_of_dictionary hv hview)
    rw [toLinked_of_dictionary hname hview,
      everywhere_avoids_dictionary_iff hkey (view_ofEntries hordered),
      everywhere_avoids_dictionary_iff hkey hview, Entries.mapValues, List.forall_mem_map,
      List.forall_mem_map]
    exact and_congr_right' (forall₂_congr fun p hp =>
      ih p hp (hv.part (part_of_mem_dictionary hview hp)))

/-! ## Reserved keys -/

theorem not_mem_chainKeys_of_mem_reservedKeys {key : String} (h : key ∈ reservedKeys) :
    key ∉ chainKeys := by
  revert key
  decide

theorem ne_variableKey_of_mem_reservedKeys {key : String} (h : key ∈ reservedKeys) :
    key ≠ variableKey := by
  revert key
  decide

theorem forall_avoids_iff (v : Value) :
    (∀ key ∈ reservedKeys, v.Everywhere (Avoids key)) ↔ v.Unreserved ∧ v.SpellsNoReserved := by
  simp only [everywhere_avoids_iff]
  exact ⟨fun h => ⟨fun key hkey => (h key hkey).1, fun key hkey => (h key hkey).2⟩,
    fun h key hkey => ⟨h.1 key hkey, h.2 key hkey⟩⟩

theorem unreserved_toLinked (v : Value) : v.toLinked.Unreserved := fun _ hkey =>
  lacks_toLinked (not_mem_chainKeys_of_mem_reservedKeys hkey)
    (ne_variableKey_of_mem_reservedKeys hkey) v

theorem unreserved_toNative_iff (v : Value) :
    v.toNative.Unreserved ↔ v.Unreserved ∧ v.SpellsNoReserved := by
  rw [← forall_avoids_iff]
  exact forall₂_congr fun key hkey =>
    lacks_toNative_iff (not_mem_chainKeys_of_mem_reservedKeys hkey) v

theorem spellsNoReserved_toLinked_iff {v : Value} (hv : v.Ordered) :
    v.toLinked.SpellsNoReserved ↔ v.Unreserved ∧ v.SpellsNoReserved := by
  have hboth : v.toLinked.SpellsNoReserved ↔ v.toLinked.Unreserved ∧ v.toLinked.SpellsNoReserved :=
    (and_iff_right v.unreserved_toLinked).symm
  rw [hboth, ← forall_avoids_iff, ← forall_avoids_iff]
  exact forall₂_congr fun key hkey =>
    everywhere_avoids_toLinked_iff (not_mem_chainKeys_of_mem_reservedKeys hkey) hv

/-- The linked spelling of a value, which there is if its floating-point numbers are finite, is
never refused for a reserved key, so the verdicts on the two agree exactly where the value passes.
Its native spelling passes exactly when the value does and no linked map of it spells a reserved
key; of a value that a kernel accepts only the second is left to ask. What the linked spelling
spells is what the value has and spells. -/
theorem refuseReserved_respelled {v : Value} (hv : v.FiniteFloats) :
    (∃ depth width, ∀ limits : Limits, depth ≤ limits.maxDepth → width ≤ limits.maxWidth →
      limits.allowFloats = true → v.toLinkedWithin limits = .ok v.toLinked) ∧
    v.toLinked.refuseReserved = .ok () ∧
    ((v.refuseReserved = .ok () ↔ v.toLinked.refuseReserved = .ok ()) ↔
      v.refuseReserved = .ok ()) ∧
    (v.toNative.refuseReserved = .ok () ↔ v.refuseReserved = .ok () ∧ v.SpellsNoReserved) ∧
    (∀ k : Kernel, k.accept v = .ok () →
      (v.toNative.refuseReserved = .ok () ↔ v.SpellsNoReserved)) ∧
    (v.Ordered →
      (v.toLinked.SpellsNoReserved ↔ v.refuseReserved = .ok () ∧ v.SpellsNoReserved)) := by
  have hlinked : v.toLinked.refuseReserved = .ok () :=
    (refuseReserved_eq_ok_iff _).2 v.unreserved_toLinked
  have hnative : v.toNative.refuseReserved = .ok () ↔
      v.refuseReserved = .ok () ∧ v.SpellsNoReserved := by
    simp only [refuseReserved_eq_ok_iff, unreserved_toNative_iff]
  refine ⟨⟨v.toLinked.depth, v.toLinked.width, fun limits => toLinkedWithin_of_le hv⟩, hlinked, ?_,
    hnative, fun k haccept => ?_, fun hordered => ?_⟩
  · rw [iff_true_right hlinked]
  · have hpasses : v.refuseReserved = .ok () :=
      (refuseReserved_eq_ok_iff v).2 ((k.accept_eq_ok_iff v).1 haccept).unreserved
    rw [hnative, and_iff_right hpasses]
  · rw [refuseReserved_eq_ok_iff, spellsNoReserved_toLinked_iff hordered]

/-- A list of a map and the linked spelling of another one, neither with a reserved key. -/
theorem refuseReserved_respelled_mixed :
    let v : Value := .list [.map [("_mode_", .null)], Linked.ofEntries [("a", .int 1)]]
    v.FiniteFloats ∧ (⟨⟨[]⟩, {}⟩ : Kernel).accept v = .ok () ∧ v.SpellsNoReserved ∧
      v.toLinked.refuseReserved = .ok () ∧ v.toNative.refuseReserved = .ok () ∧
        v.toLinked.SpellsNoReserved := by
  intro v
  have hfinite : v.FiniteFloats := by decide
  have haccept : (⟨⟨[]⟩, {}⟩ : Kernel).accept v = .ok () := rfl
  have hspells : v.SpellsNoReserved := by decide
  obtain ⟨-, hlinked, -, -, hnative, hspelled⟩ := refuseReserved_respelled hfinite
  exact ⟨hfinite, haccept, hspells, hlinked, (hnative _ haccept).2 hspells,
    (hspelled (by decide)).2 ⟨rfl, hspells⟩⟩

/-- A map with a reserved key is refused. Its linked spelling is accepted, and turned into maps
again it has the key. -/
theorem accept_toLinked_of_reserved :
    let v : Value := .map [("_mode", .int 1)]
    v.FiniteFloats ∧ v.refuseReserved = .error (.reservedKey "_mode") ∧
      v.toLinked.refuseReserved = .ok () ∧
      (⟨⟨[]⟩, {}⟩ : Kernel).accept v.toLinked = .ok () ∧
      v.toLinked.toNative.refuseReserved = .error (.reservedKey "_mode") := by
  intro v
  have hview : v.view = .dictionary [("_mode", .int 1)] := rfl
  have hlinked : v.toLinked = Linked.ofEntries [("_mode", .int 1)] := by
    have hint : (Value.int 1).toLinked = .int 1 := toLinked_of_isScalar rfl
    rw [toLinked_of_dictionary rfl hview, Entries.mapValues_cons, hint]
    rfl
  have hseen : (Linked.ofEntries [("_mode", .int 1)]).view = .dictionary [("_mode", .int 1)] := rfl
  have hnative : (Linked.ofEntries [("_mode", .int 1)]).toNative = v := by
    have hint : (Value.int 1).respell .list .map = .int 1 := respell_of_isScalar rfl
    rw [toNative, respell_of_dictionary rfl hseen, Entries.mapValues_cons, hint]
    rfl
  rw [hlinked, hnative]
  exact ⟨by decide, rfl, rfl, rfl, rfl⟩

end Value

end TreeReduction
