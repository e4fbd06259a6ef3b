set_option autoImplicit false

/-!
# Entries in key order

The entries of a map as a list of pairs in strictly ascending order of their keys, by code point.
`Entries.insert` puts an entry in its place and gives a key that is present its new value, so
`Entries.ofList` keeps the last of several values of one key and always answers an ordered list.
-/

namespace TreeReduction

/-- Pairs of a key and what it holds. -/
abbrev Entries (α : Type) : Type := List (String × α)

namespace Entries

variable {α : Type}

/-- The keys ascend strictly. -/
def Ordered (entries : Entries α) : Prop :=
  entries.Pairwise fun a b => a.1 < b.1

/-- Puts an entry in its place; a key that is present gets the new value. -/
def insert (key : String) (value : α) : Entries α → Entries α
  | [] => [(key, value)]
  | (k, v) :: rest =>
    if key < k then (key, value) :: (k, v) :: rest
    else if key = k then (key, value) :: rest
    else (k, v) :: insert key value rest

/-- The ordered entries of a list of pairs; of several values of one key the last stays. -/
def ofList (pairs : List (String × α)) : Entries α :=
  pairs.foldl (fun entries p => entries.insert p.1 p.2) []

/-- What a key holds. -/
def get? (entries : Entries α) (key : String) : Option α :=
  (entries.find? fun p => p.1 == key).map (·.2)

/-- Whether a key is present. -/
def contains (entries : Entries α) (key : String) : Bool :=
  entries.any fun p => p.1 == key

/-- The keys in order. -/
def keys (entries : Entries α) : List String :=
  entries.map (·.1)

/-- What the keys hold, in the order of the keys. -/
def values (entries : Entries α) : List α :=
  entries.map (·.2)

@[simp]
theorem get?_nil (key : String) : get? ([] : Entries α) key = none := rfl

theorem get?_cons (p : String × α) (rest : Entries α) (key : String) :
    get? (p :: rest) key = if p.1 = key then some p.2 else get? rest key := by
  by_cases h : p.1 = key <;> simp [get?, h]

theorem mem_of_get? {entries : Entries α} {key : String} {value : α}
    (h : entries.get? key = some value) : (key, value) ∈ entries := by
  simp only [get?, Option.map_eq_some_iff] at h
  obtain ⟨p, hp, rfl⟩ := h
  have hk := List.find?_some hp
  simp only [beq_iff_eq] at hk
  subst hk
  exact List.mem_of_find?_eq_some hp

theorem mem_insert {key : String} {value : α} {p : String × α} :
    ∀ {entries : Entries α}, p ∈ insert key value entries → p = (key, value) ∨ p ∈ entries
  | [], h => by simpa [insert] using h
  | (k, v) :: rest, h => by
    unfold insert at h
    split at h
    · simpa using h
    · split at h
      · rcases List.mem_cons.1 h with h | h <;> simp [h]
      · rcases List.mem_cons.1 h with h | h
        · simp [h]
        · rcases mem_insert h with h | h <;> simp [h]

/-- Ordering pairs adds none. -/
theorem mem_of_mem_ofList {pairs : List (String × α)} {p : String × α} (h : p ∈ ofList pairs) :
    p ∈ pairs := by
  have step : ∀ (ps : List (String × α)) (acc : Entries α),
      p ∈ ps.foldl (fun entries q => insert q.1 q.2 entries) acc → p ∈ acc ∨ p ∈ ps := by
    intro ps
    induction ps with
    | nil => intro acc h; exact .inl h
    | cons q ps ih =>
      intro acc h
      rcases ih _ h with h | h
      · rcases mem_insert h with h | h
        · exact .inr (by simp [h])
        · exact .inl h
      · exact .inr (List.mem_cons_of_mem _ h)
  simpa using step pairs [] h

end Entries

end TreeReduction
