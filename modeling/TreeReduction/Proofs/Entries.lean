import TreeReduction.Entries

set_option autoImplicit false

/-!
# Laws of entries

How looking up, inserting and ordering entries go together. Looking up needs no order: the first
entry of a key is the one that counts, whatever stands around it. Order is what makes a list of
entries the only spelling of what it maps, so that putting ordered entries in order again changes
nothing.
-/

namespace TreeReduction.Entries

variable {α β : Type}

/-! ## Looking up -/

theorem contains_eq_isSome (entries : Entries α) (key : String) :
    entries.contains key = (entries.get? key).isSome := by
  induction entries with
  | nil => rfl
  | cons p rest ih =>
    rw [get?_cons]
    by_cases h : p.1 = key
    · simp [contains, h]
    · rw [if_neg h, ← ih]
      simp [contains, h]

theorem isSome_get?_iff {entries : Entries α} {key : String} :
    (entries.get? key).isSome ↔ key ∈ entries.keys := by
  induction entries with
  | nil => simp [keys]
  | cons p rest ih =>
    rw [get?_cons, keys, List.map_cons, List.mem_cons, ← keys, ← ih]
    by_cases h : p.1 = key
    · simp [h]
    · simp [h, Ne.symm h]

theorem get?_eq_none_iff {entries : Entries α} {key : String} :
    entries.get? key = none ↔ key ∉ entries.keys := by
  rw [← isSome_get?_iff, Option.not_isSome_iff_eq_none]

theorem get?_insert (entries : Entries α) (key name : String) (value : α) :
    (entries.insert key value).get? name =
      if key = name then some value else entries.get? name := by
  induction entries with
  | nil => exact get?_cons (key, value) [] name
  | cons p rest ih =>
    obtain ⟨k, v⟩ := p
    unfold insert
    split
    · rw [get?_cons]
    · split
      · rename_i hk
        subst hk
        by_cases h : key = name <;> simp [get?_cons, h]
      · rename_i hk
        rw [get?_cons, get?_cons, ih]
        by_cases h : k = name
        · subst h
          simp [hk]
        · simp [h]

theorem not_mem_keys_iff {entries : Entries α} {key : String} :
    key ∉ entries.keys ↔ ∀ p ∈ entries, p.1 ≠ key := by
  simp only [keys, List.mem_map, not_exists, not_and, ne_eq]

/-- Where no key stands twice, every entry is found under its key. -/
theorem get?_of_nodup {entries : Entries α} (h : entries.keys.Nodup) {p : String × α}
    (hp : p ∈ entries) : entries.get? p.1 = some p.2 := by
  induction entries with
  | nil => simp at hp
  | cons q rest ih =>
    obtain ⟨hq, hrest⟩ := List.nodup_cons.1 h
    rw [get?_cons]
    rcases List.mem_cons.1 hp with rfl | hp
    · simp
    · have hne : q.1 ≠ p.1 := fun heq => hq (List.mem_map.2 ⟨p, hp, heq.symm⟩)
      rw [if_neg hne]
      exact ih hrest hp

/-- Where no key stands twice, the order of the entries does not matter to what is found. -/
theorem get?_of_perm {entries others : Entries α} (h : others.keys.Nodup)
    (hperm : entries.Perm others) (key : String) : entries.get? key = others.get? key := by
  have hentries : entries.keys.Nodup := (hperm.map _).nodup_iff.2 h
  refine Option.ext fun value => ⟨fun hvalue => ?_, fun hvalue => ?_⟩
  · exact get?_of_nodup h (hperm.mem_iff.1 (mem_of_get? hvalue))
  · exact get?_of_nodup hentries (hperm.mem_iff.2 (mem_of_get? hvalue))

/-! ## Order -/

instance (entries : Entries α) : Decidable entries.Ordered :=
  inferInstanceAs (Decidable (List.Pairwise _ _))

theorem key_ne_of_lt {a b : String} (h : a < b) : a ≠ b := by
  rintro rfl
  exact String.lt_irrefl a h

theorem ordered_cons_iff (p : String × α) (rest : Entries α) :
    Ordered (p :: rest) ↔ (∀ q ∈ rest, p.1 < q.1) ∧ Ordered rest :=
  List.pairwise_cons

/-- In order, no key stands twice. -/
theorem Ordered.nodup_keys {entries : Entries α} (h : Ordered entries) :
    (entries.map (·.1)).Nodup :=
  List.pairwise_map.mpr (h.imp key_ne_of_lt)

/-- In order, every entry is found under its key. -/
theorem Ordered.get?_of_mem {entries : Entries α} (h : Ordered entries) {p : String × α}
    (hp : p ∈ entries) : entries.get? p.1 = some p.2 :=
  get?_of_nodup h.nodup_keys hp

/-- An entry beyond the last key goes to the end. -/
theorem insert_of_forall_lt {entries : Entries α} {key : String} (value : α)
    (h : ∀ p ∈ entries, p.1 < key) : entries.insert key value = entries ++ [(key, value)] := by
  induction entries with
  | nil => rfl
  | cons p rest ih =>
    have hlt : p.1 < key := h p (by simp)
    unfold insert
    rw [if_neg (String.lt_asymm hlt), if_neg (key_ne_of_lt hlt).symm,
      ih fun q hq => h q (by simp [hq])]
    rfl

/-- Ordered entries are put in order by leaving them as they are. -/
theorem ofList_of_ordered {entries : Entries α} (h : Ordered entries) :
    ofList entries = entries := by
  have step : ∀ (rest acc : Entries α), Ordered (acc ++ rest) →
      rest.foldl (fun es p => es.insert p.1 p.2) acc = acc ++ rest := by
    intro rest
    induction rest with
    | nil => intro acc _; simp
    | cons p rest ih =>
      intro acc hacc
      have hlt : ∀ q ∈ acc, q.1 < p.1 := fun q hq =>
        (List.pairwise_append.mp hacc).2.2 q hq p (by simp)
      rw [List.foldl_cons, insert_of_forall_lt p.2 hlt, ih _ (by simpa using hacc)]
      simp
  exact step entries [] h

/-- An entry under a new key is added, wherever it goes. -/
theorem insert_perm {entries : Entries α} {key : String} (value : α)
    (h : ∀ p ∈ entries, p.1 ≠ key) : (entries.insert key value).Perm ((key, value) :: entries) := by
  induction entries with
  | nil => exact .refl _
  | cons p rest ih =>
    obtain ⟨hp, hrest⟩ := List.forall_mem_cons.1 h
    unfold insert
    split
    · exact .refl _
    · rw [if_neg fun heq => hp heq.symm]
      exact ((ih hrest).cons p).trans (.swap _ _ _)

/-- Ordering pairs whose keys differ leaves none out. -/
theorem ofList_perm {pairs : List (String × α)} (h : (pairs.map (·.1)).Nodup) :
    (ofList pairs).Perm pairs := by
  have step : ∀ (rest acc : Entries α), ((acc ++ rest).map (·.1)).Nodup →
      (rest.foldl (fun es p => es.insert p.1 p.2) acc).Perm (acc ++ rest) := by
    intro rest
    induction rest with
    | nil => intro acc _; simp
    | cons p rest ih =>
      intro acc hacc
      have hnew : ∀ q ∈ acc, q.1 ≠ p.1 := by
        intro q hq
        rw [List.map_append, List.nodup_append] at hacc
        exact hacc.2.2 q.1 (List.mem_map_of_mem hq) p.1 (by simp)
      have hperm : (acc.insert p.1 p.2 ++ rest).Perm (acc ++ p :: rest) :=
        ((insert_perm p.2 hnew).append_right rest).trans List.perm_middle.symm
      exact (ih _ ((hperm.map _).nodup_iff.2 hacc)).trans hperm
  exact step pairs [] h

theorem ordered_insert {entries : Entries α} (h : Ordered entries) (key : String) (value : α) :
    Ordered (entries.insert key value) := by
  induction entries with
  | nil => exact List.pairwise_singleton _ _
  | cons p rest ih =>
    obtain ⟨hp, hrest⟩ := (ordered_cons_iff p rest).1 h
    unfold insert
    split
    · rename_i hlt
      refine (ordered_cons_iff _ _).2 ⟨List.forall_mem_cons.2 ⟨hlt, fun q hq => ?_⟩, h⟩
      exact String.lt_trans hlt (hp q hq)
    · split
      · rename_i heq
        exact (ordered_cons_iff _ _).2 ⟨fun q hq => heq ▸ hp q hq, hrest⟩
      · rename_i hlt hne
        refine (ordered_cons_iff _ _).2 ⟨fun q hq => ?_, ih hrest⟩
        rcases mem_insert hq with rfl | hq
        · exact Std.lt_of_le_of_ne (String.not_lt.1 hlt) (Ne.symm hne)
        · exact hp q hq

theorem ordered_ofList (pairs : List (String × α)) : Ordered (ofList pairs) := by
  have step : ∀ (rest acc : Entries α), Ordered acc →
      Ordered (rest.foldl (fun es p => es.insert p.1 p.2) acc) := by
    intro rest
    induction rest with
    | nil => exact fun _ hacc => hacc
    | cons p rest ih => exact fun acc hacc => ih _ (ordered_insert hacc p.1 p.2)
  exact step pairs [] List.Pairwise.nil

/-- There is one way to put entries in order. -/
theorem Ordered.eq_of_perm {entries others : Entries α} (h : Ordered entries) (ho : Ordered others)
    (hperm : entries.Perm others) : entries = others :=
  hperm.eq_of_pairwise (fun _ _ _ _ hlt hgt => absurd hgt (String.lt_asymm hlt)) h ho

/-- Pairs in order are what ordering them answers. -/
theorem ofList_eq_of_perm {pairs : List (String × α)} {sorted : Entries α}
    (hperm : sorted.Perm pairs) (hsorted : Ordered sorted) : ofList pairs = sorted := by
  have hnodup : (pairs.map (·.1)).Nodup := (hperm.map _).nodup_iff.1 hsorted.nodup_keys
  exact (ordered_ofList pairs).eq_of_perm hsorted ((ofList_perm hnodup).trans hperm.symm)

/-- In order, the keys ascend. -/
theorem pairwise_keys_iff (entries : Entries α) : entries.keys.Pairwise (· < ·) ↔ Ordered entries :=
  List.pairwise_map

theorem mem_keys_insert_iff (entries : Entries α) (key name : String) (value : α) :
    name ∈ (entries.insert key value).keys ↔ name = key ∨ name ∈ entries.keys := by
  induction entries with
  | nil => simp [insert, keys]
  | cons p rest ih =>
    unfold insert
    split
    · simp [keys]
    · split
      · rename_i hkey
        simp [keys, hkey]
      · simp only [keys, List.map_cons, List.mem_cons] at ih ⊢
        rw [ih, or_left_comm]

/-- Ordering pairs loses no key. -/
theorem mem_keys_ofList_iff (pairs : List (String × α)) (name : String) :
    name ∈ (ofList pairs).keys ↔ name ∈ pairs.map (·.1) := by
  have step : ∀ (rest acc : Entries α),
      name ∈ (rest.foldl (fun es p => es.insert p.1 p.2) acc).keys ↔
        name ∈ acc.keys ∨ name ∈ rest.map (·.1) := by
    intro rest
    induction rest with
    | nil => simp
    | cons p rest ih =>
      intro acc
      rw [List.foldl_cons, ih, mem_keys_insert_iff, List.map_cons, List.mem_cons, or_assoc,
        or_left_comm]
  have hnil : name ∉ keys ([] : Entries α) := by simp [keys]
  rw [ofList, step pairs [], or_iff_right hnil]

/-- Keys in order keep it when they are given other values. -/
theorem ordered_zip {entries : Entries α} (h : Ordered entries) {values : List β}
    (hlength : values.length = entries.length) : Ordered (entries.keys.zip values) := by
  have hkeys : (entries.keys.zip values).map (·.1) = entries.keys :=
    List.map_fst_zip (by simp [keys, hlength])
  rw [← pairwise_keys_iff, keys, hkeys, pairwise_keys_iff]
  exact h

/-! ## Changing what the keys hold -/

/-- The entries with a function applied to what every key holds. -/
def mapValues (f : α → β) (entries : Entries α) : Entries β :=
  entries.map fun p => (p.1, f p.2)

@[simp]
theorem mapValues_nil (f : α → β) : mapValues f [] = [] := rfl

@[simp]
theorem mapValues_cons (f : α → β) (p : String × α) (rest : Entries α) :
    mapValues f (p :: rest) = (p.1, f p.2) :: mapValues f rest := rfl

@[simp]
theorem keys_mapValues (f : α → β) (entries : Entries α) :
    (mapValues f entries).keys = entries.keys := by
  simp [keys, mapValues]

@[simp]
theorem values_mapValues (f : α → β) (entries : Entries α) :
    (mapValues f entries).values = entries.values.map f := by
  simp [values, mapValues]

theorem mem_mapValues_iff {f : α → β} {entries : Entries α} {q : String × β} :
    q ∈ mapValues f entries ↔ ∃ p ∈ entries, q = (p.1, f p.2) := by
  simp [mapValues, eq_comm]

@[simp]
theorem get?_mapValues (f : α → β) (entries : Entries α) (key : String) :
    (mapValues f entries).get? key = (entries.get? key).map f := by
  induction entries with
  | nil => rfl
  | cons p rest ih =>
    rw [mapValues_cons, get?_cons, get?_cons, ih]
    split <;> rfl

@[simp]
theorem contains_mapValues (f : α → β) (entries : Entries α) (key : String) :
    (mapValues f entries).contains key = entries.contains key := by
  rw [contains_eq_isSome, contains_eq_isSome, get?_mapValues, Option.isSome_map]

theorem insert_mapValues (f : α → β) (entries : Entries α) (key : String) (value : α) :
    (mapValues f entries).insert key (f value) = mapValues f (entries.insert key value) := by
  induction entries with
  | nil => rfl
  | cons p rest ih =>
    unfold insert
    simp only [mapValues_cons]
    split
    · rfl
    · split
      · rfl
      · rw [mapValues_cons, ih]

/-- Pairs are put in order by their keys alone. -/
theorem ofList_mapValues (f : α → β) (pairs : List (String × α)) :
    ofList (mapValues f pairs) = mapValues f (ofList pairs) := by
  have step : ∀ (rest : List (String × α)) (acc : Entries α),
      (mapValues f rest).foldl (fun es p => es.insert p.1 p.2) (mapValues f acc) =
        mapValues f (rest.foldl (fun es p => es.insert p.1 p.2) acc) := by
    intro rest
    induction rest with
    | nil => exact fun _ => rfl
    | cons p rest ih =>
      intro acc
      rw [mapValues_cons, List.foldl_cons, List.foldl_cons, ← ih, ← insert_mapValues]
  exact step pairs []

theorem ordered_mapValues_iff (f : α → β) (entries : Entries α) :
    Ordered (mapValues f entries) ↔ Ordered entries :=
  List.pairwise_map

@[simp]
theorem mapValues_id (entries : Entries α) : mapValues id entries = entries := by
  simp [mapValues]

end TreeReduction.Entries
