import TreeReduction.Proofs.BoundNames
import TreeReduction.Proofs.DepthGuard

set_option autoImplicit false

/-!
# Matching as embedding

A tree embeds into another when it is what is left of it after entries of maps are left out, at any
depth. Matching decides whether a pattern can be filled in so that it embeds into the value: a
filled-in pattern that embeds is always found (`Matching.extend_of_embedsUnder`), and what a match
binds fills the pattern in that way if no name has to stand for two values
(`Matching.embedsUnder_of_extend`).

Both go down the same pairs of children that the match compares (`Value.embedsUnder_iff_pairs?`).
All of it is about trees without tags, which are compared as they are spelled.
-/

namespace TreeReduction

namespace Value

/-! ## Embedding -/

mutual

/-- A scalar embeds into itself, a list into a list of its length, item by item, and a map into a
map that has all its keys, entry by entry. -/
def Embeds : Value → Value → Prop
  | .list us, .list vs => EmbedsItems us vs
  | .map us, .map vs => EmbedsEntries us vs
  | u, v => u.sameScalar v = true

/-- The items embed one by one. -/
def EmbedsItems : List Value → List Value → Prop
  | [], [] => True
  | u :: us, v :: vs => u.Embeds v ∧ EmbedsItems us vs
  | _, _ => False

/-- What every key holds embeds into what it holds on the other side. -/
def EmbedsEntries : List (String × Value) → List (String × Value) → Prop
  | [], _ => True
  | (key, u) :: us, vs => (∃ v, Entries.get? vs key = some v ∧ u.Embeds v) ∧ EmbedsEntries us vs

end

theorem embedsItems_iff {us vs : List Value} : EmbedsItems us vs ↔ List.Forall₂ Embeds us vs := by
  induction us generalizing vs with
  | nil => cases vs <;> simp [EmbedsItems]
  | cons u us ih => cases vs <;> simp [EmbedsItems, ih]

theorem embedsEntries_iff {us vs : List (String × Value)} :
    EmbedsEntries us vs ↔ ∀ p ∈ us, ∃ v, Entries.get? vs p.1 = some v ∧ (p.2 : Value).Embeds v := by
  induction us with
  | nil => simp [EmbedsEntries]
  | cons p us ih => simp [EmbedsEntries, ih]

theorem embeds_iff_of_isScalar {u v : Value} (h : u.isScalar = true) : u.Embeds v ↔ u = v := by
  rw [← and_iff_right (a := u.isScalar = true) (b := u = v) h, ← sameScalar_iff]
  cases u <;> cases v <;> simp_all [Embeds, isScalar]

theorem embeds_list_iff {us : List Value} {v : Value} :
    (Value.list us).Embeds v ↔ ∃ vs, v = .list vs ∧ List.Forall₂ Embeds us vs := by
  cases v <;> simp [Embeds, sameScalar, embedsItems_iff]

theorem embeds_map_iff {us : List (String × Value)} {v : Value} :
    (Value.map us).Embeds v ↔
      ∃ vs, v = .map vs ∧
        ∀ p ∈ us, ∃ w, Entries.get? vs p.1 = some w ∧ (p.2 : Value).Embeds w := by
  cases v <;> simp [Embeds, sameScalar, embedsEntries_iff]

/-- A tree in which no key hides behind an equal one embeds into itself. -/
theorem Embeds.refl {v : Value} (h : v.Ordered) : v.Embeds v := by
  induction v using Value.induct with
  | scalar v hv => exact (embeds_iff_of_isScalar hv).2 rfl
  | list items ih =>
    rw [ordered_list_iff] at h
    refine embeds_list_iff.2 ⟨items, rfl, List.forall₂_same.2 fun x hx => ?_⟩
    exact ih x hx (h x hx)
  | map entries ih =>
    rw [ordered_map_iff] at h
    refine embeds_map_iff.2 ⟨entries, rfl, fun p hp => ⟨p.2, ?_, ih p hp (h.2 p hp)⟩⟩
    exact h.1.get?_of_mem hp

/-! ## Embedding of a pattern -/

/-- A pattern that is filled in with bindings embeds into a value. -/
def EmbedsUnder (bindings : Bindings) (pattern value : Value) : Prop :=
  ∃ u, pattern.instantiate bindings = .ok u ∧ u.Embeds value

section EmbedsUnder

variable {bindings : Bindings}

theorem embedsUnder_iff_of_isScalar {pattern value : Value} (h : pattern.isScalar = true) :
    pattern.EmbedsUnder bindings value ↔ pattern.sameScalar value = true := by
  rw [sameScalar_iff, and_iff_right h, ← embeds_iff_of_isScalar h, EmbedsUnder,
    instantiate_of_isScalar h]
  simp

theorem embedsUnder_site_iff {name : String} {value : Value} :
    (site name).EmbedsUnder bindings value ↔
      ∃ u, Entries.get? bindings name = some u ∧ u.Embeds value := by
  simp only [EmbedsUnder, instantiate_site_eq_ok_iff]

theorem forall₂_embedsUnder_iff {patterns values : List Value} :
    (∃ us, List.Forall₂ (fun x u => x.instantiate bindings = .ok u) patterns us ∧
      List.Forall₂ Embeds us values) ↔ List.Forall₂ (EmbedsUnder bindings) patterns values := by
  induction patterns generalizing values with
  | nil => simp [eq_comm]
  | cons p rest ih =>
    simp only [List.forall₂_cons_left_iff, ← ih, EmbedsUnder]
    constructor
    · rintro ⟨us, ⟨u, us', hu, hus', rfl⟩, hvalues⟩
      obtain ⟨v, vs, huv, huvs, rfl⟩ := List.forall₂_cons_left_iff.1 hvalues
      exact ⟨v, vs, ⟨u, hu, huv⟩, ⟨us', hus', huvs⟩, rfl⟩
    · rintro ⟨v, vs, ⟨u, hu, huv⟩, ⟨us', hus', huvs⟩, rfl⟩
      exact ⟨u :: us', ⟨u, us', hu, hus', rfl⟩, .cons huv huvs⟩

theorem embedsUnder_list_iff {patterns : List Value} {value : Value} :
    (Value.list patterns).EmbedsUnder bindings value ↔
      ∃ values, value = .list values ∧ List.Forall₂ (EmbedsUnder bindings) patterns values := by
  simp only [EmbedsUnder, instantiate_list_eq_ok_iff, ← forall₂_embedsUnder_iff]
  constructor
  · rintro ⟨_, ⟨us, rfl, hus⟩, hvalue⟩
    obtain ⟨values, rfl, hvalues⟩ := embeds_list_iff.1 hvalue
    exact ⟨values, rfl, us, hus, hvalues⟩
  · rintro ⟨values, rfl, us, hus, hvalues⟩
    exact ⟨.list us, ⟨us, rfl, hus⟩, embeds_list_iff.2 ⟨values, rfl, hvalues⟩⟩

theorem forall_embedsUnder_iff {patterns values : List (String × Value)} :
    (∃ us : List (String × Value),
      List.Forall₂ (fun p q => p.1 = q.1 ∧ p.2.instantiate bindings = .ok q.2) patterns us ∧
        ∀ p ∈ us, ∃ w, Entries.get? values p.1 = some w ∧ p.2.Embeds w) ↔
    ∀ p ∈ patterns, ∃ w, Entries.get? values p.1 = some w ∧ p.2.EmbedsUnder bindings w := by
  induction patterns with
  | nil => simp
  | cons p rest ih =>
    rw [List.forall_mem_cons, ← ih]
    simp only [List.forall₂_cons_left_iff, EmbedsUnder]
    constructor
    · rintro ⟨us, ⟨⟨key, u⟩, us', ⟨rfl, hu⟩, hus', rfl⟩, hvalues⟩
      rw [List.forall_mem_cons] at hvalues
      obtain ⟨⟨w, hw, huw⟩, hvalues⟩ := hvalues
      exact ⟨⟨w, hw, u, hu, huw⟩, us', hus', hvalues⟩
    · rintro ⟨⟨w, hw, u, hu, huw⟩, us', hus', hvalues⟩
      refine ⟨(p.1, u) :: us', ⟨(p.1, u), us', ⟨rfl, hu⟩, hus', rfl⟩, ?_⟩
      rw [List.forall_mem_cons]
      exact ⟨⟨w, hw, huw⟩, hvalues⟩

theorem embedsUnder_map_iff {patterns : List (String × Value)} {value : Value}
    (h : siteName? patterns = none) :
    (Value.map patterns).EmbedsUnder bindings value ↔
      ∃ values, value = .map values ∧ ∀ p ∈ patterns,
        ∃ w, Entries.get? values p.1 = some w ∧ p.2.EmbedsUnder bindings w := by
  simp only [← forall_embedsUnder_iff]
  rw [EmbedsUnder]
  simp only [instantiate_map_eq_ok_iff h]
  constructor
  · rintro ⟨_, ⟨us, rfl, hus⟩, hvalue⟩
    obtain ⟨values, rfl, hvalues⟩ := embeds_map_iff.1 hvalue
    exact ⟨values, rfl, us, hus, hvalues⟩
  · rintro ⟨values, rfl, us, hus, hvalues⟩
    exact ⟨.map us, ⟨us, rfl, hus⟩, embeds_map_iff.2 ⟨values, rfl, hvalues⟩⟩

/-- Whether a pattern embeds depends on the bindings of its own names only. -/
theorem EmbedsUnder.congr {b c : Bindings} {pattern value : Value}
    (h : pattern.EmbedsUnder b value)
    (hagree : ∀ name ∈ pattern.variableNames, Entries.get? c name = Entries.get? b name) :
    pattern.EmbedsUnder c value := by
  obtain ⟨u, hu, huv⟩ := h
  exact ⟨u, instantiate_congr hagree hu, huv⟩

/-- A container embeds under bindings when the children do that a match compares. -/
theorem embedsUnder_iff_pairs? {pattern value : Value} (hp : pattern.Untagged)
    (hv : value.Untagged) (hscalar : pattern.isScalar = false)
    (hname : pattern.variableName? = none) :
    pattern.EmbedsUnder bindings value ↔
      ∃ pairs, Matching.pairs? pattern value = some pairs ∧
        ∀ q ∈ pairs, q.1.EmbedsUnder bindings q.2 := by
  cases pattern with
  | list patterns =>
    simp only [embedsUnder_list_iff, Matching.pairs?_list_iff hp hv, List.forall₂_iff_zip]
    constructor
    · rintro ⟨values, rfl, hlength, hzip⟩
      exact ⟨_, ⟨values, rfl, hlength, rfl⟩, fun q hq => hzip hq⟩
    · rintro ⟨_, ⟨values, rfl, hlength, rfl⟩, hzip⟩
      exact ⟨values, rfl, hlength, fun {p v} hpv => hzip (p, v) hpv⟩
  | map patterns =>
    rw [embedsUnder_map_iff hname]
    simp only [Matching.pairs?_map_iff hp hv, ← Matching.exists_entryPairs?_iff]
    constructor
    · rintro ⟨values, rfl, pairs, hpairs, hall⟩
      exact ⟨pairs, ⟨values, rfl, hpairs⟩, hall⟩
    · rintro ⟨pairs, ⟨values, rfl, hpairs⟩, hall⟩
      exact ⟨values, rfl, pairs, hpairs, hall⟩
  | _ => simp [isScalar] at hscalar

end EmbedsUnder

end Value

namespace Matching

/-! ## What embeds is found -/

/-- A pattern that can be filled in to embed into a value matches it, whatever is bound before. -/
theorem extend_of_embedsUnder (room : Nat) {pattern value : Value} (hp : pattern.Untagged)
    (hv : value.Untagged) (hdepth : value.depth ≤ room) {filling : Bindings}
    (h : pattern.EmbedsUnder filling value) (bindings : Bindings) :
    ∃ result, extend room pattern value bindings = some result := by
  induction room using Nat.strongRecOn generalizing pattern value bindings with
  | ind room ih =>
    cases hscalar : pattern.isScalar with
    | true =>
      rw [Value.embedsUnder_iff_of_isScalar hscalar] at h
      rw [extend_of_isScalar hscalar, if_pos h]
      exact ⟨bindings, rfl⟩
    | false =>
      cases hname : pattern.variableName? with
      | some name =>
        rw [extend_of_name hname]
        exact ⟨_, rfl⟩
      | none =>
        obtain ⟨pairs, hpairs, hall⟩ := (Value.embedsUnder_iff_pairs? hp hv hscalar hname).1 h
        rw [extend_of_container hscalar hname, hpairs, Option.bind_some,
          if_pos (room_of_pairs? hpairs hdepth)]
        have hfold := exists_foldlM_eq_some (I := fun _ => True)
          (f := fun b q => extend (room - 1) q.1 q.2 b) pairs bindings fun q hq b _ => by
            obtain ⟨hq₁, hq₂⟩ := part_of_mem_pairs? hpairs hq
            have hlt := (child_of_mem_pairs? hpairs hq).2.depth_lt
            obtain ⟨c, hc⟩ :=
              ih (room - 1) (by omega) (hp.part hq₁) (hv.part hq₂) (by omega) (hall q hq) b
            exact ⟨c, hc, trivial⟩
        obtain ⟨result, hresult, -⟩ := hfold trivial
        exact ⟨result, hresult⟩

/-! ## What is found embeds -/

/-- If the steps of a fold each make their own pair embed, and no name occurs twice, then all pairs
embed under what the fold ends with. -/
theorem embedsUnder_of_foldlM {room : Nat} {pairs : List (Value × Value)}
    (hstep : ∀ q ∈ pairs, ∀ b c, extend room q.1 q.2 b = some c → q.1.variableNames.Nodup →
      (∀ name ∈ q.1.variableNames, Entries.get? b name = none) → q.1.EmbedsUnder c q.2)
    (hlinear : (pairs.flatMap fun q => q.1.variableNames).Nodup) {bindings result : Bindings}
    (hfresh : ∀ name ∈ pairs.flatMap fun q => q.1.variableNames, Entries.get? bindings name = none)
    (hfold : pairs.foldlM (fun b q => extend room q.1 q.2 b) bindings = some result) :
    ∀ q ∈ pairs, q.1.EmbedsUnder result q.2 := by
  induction pairs generalizing bindings with
  | nil => simp
  | cons p rest ih =>
    rw [List.foldlM_cons] at hfold
    obtain ⟨b, hb, hfold⟩ := Option.bind_eq_some_iff.1 hfold
    rw [List.flatMap_cons, List.nodup_append] at hlinear
    obtain ⟨hp, hrest, hdisjoint⟩ := hlinear
    rw [List.flatMap_cons] at hfresh
    rw [List.forall_mem_cons] at hstep ⊢
    constructor
    · -- later pairs bind other names, so the first still embeds at the end
      refine (hstep.1 bindings b hb hp fun name hname => hfresh name (by simp [hname])).congr ?_
      intro name hname
      refine foldlM_invariant (I := fun c => Entries.get? c name = Entries.get? b name)
        rest b result (fun q hq c d hc hd => ?_) rfl hfold
      have hother : name ∉ q.1.variableNames := fun hin =>
        hdisjoint name hname name (List.mem_flatMap.2 ⟨q, hq, hin⟩) rfl
      exact (get?_extend room hd hother).trans hc
    · refine ih hstep.2 hrest (fun name hname => ?_) hfold
      have hother : name ∉ p.1.variableNames := fun hin => hdisjoint name hin name hname rfl
      rw [get?_extend room hb hother]
      exact hfresh name (by simp [hname])

/-- A pattern in which no name occurs twice embeds under what a match of it binds. -/
theorem embedsUnder_of_extend (room : Nat) {pattern value : Value} (hp : pattern.Untagged)
    (hv : value.Untagged) (hvo : value.Ordered) {bindings result : Bindings}
    (h : extend room pattern value bindings = some result)
    (hlinear : pattern.variableNames.Nodup)
    (hfresh : ∀ name ∈ pattern.variableNames, Entries.get? bindings name = none) :
    pattern.EmbedsUnder result value := by
  induction room using Nat.strongRecOn generalizing pattern value bindings result with
  | ind room ih =>
    rcases extend_cases h with
      ⟨hscalar, hsame, rfl⟩ | ⟨name, hname, rfl⟩ | ⟨hscalar, hname, pairs, hpairs, hroom, hfold⟩
    · exact (Value.embedsUnder_iff_of_isScalar hscalar).2 hsame
    · rw [Value.variableName?_eq_some_iff.1 hname] at hfresh ⊢
      rw [Value.embedsUnder_site_iff, Bindings.get?_bindFirst_self value (hfresh name (by simp))]
      exact ⟨value, rfl, .refl hvo⟩
    · have hnames := variableNames_perm_of_pairs? hname hpairs
      rw [hnames.nodup_iff] at hlinear
      simp only [hnames.mem_iff] at hfresh
      rw [Value.embedsUnder_iff_pairs? hp hv hscalar hname]
      refine ⟨pairs, hpairs, embedsUnder_of_foldlM (fun q hq b c hbc => ?_) hlinear hfresh hfold⟩
      obtain ⟨hq₁, hq₂⟩ := part_of_mem_pairs? hpairs hq
      have hpos : 0 < room := hroom.resolve_left (List.ne_nil_of_mem hq)
      exact ih (room - 1) (by omega) (hp.part hq₁) (hv.part hq₂) (hvo.part hq₂) hbc

end Matching

namespace Value

/-- For trees without tags, matching is sound and complete for embedding. What it binds fills a
pattern that names nothing twice in so that it embeds into the value. Any pattern that bindings can
fill in to embed into a value no deeper than the bound matches that value. -/
theorem match?_embeds {pattern value : Value} (hp : pattern.Untagged) (hv : value.Untagged)
    (hvo : value.Ordered) {maxDepth : Nat} (hdepth : value.depth ≤ maxDepth) :
    (∀ bindings, pattern.match? maxDepth value = some bindings → pattern.variableNames.Nodup →
      ∃ u, pattern.instantiate bindings = .ok u ∧ u.Embeds value) ∧
    ∀ filling u, pattern.instantiate filling = .ok u → u.Embeds value →
      ∃ bindings, pattern.match? maxDepth value = some bindings := by
  constructor
  · intro bindings h hlinear
    exact Matching.embedsUnder_of_extend maxDepth hp hv hvo h hlinear fun name _ => rfl
  · intro filling u hu huv
    exact Matching.extend_of_embedsUnder maxDepth hp hv hdepth ⟨u, hu, huv⟩ []

/-- A map with two sites in a list, in both directions: the value has a key more. -/
theorem match?_embeds_pair :
    let pattern : Value := .map [("k", .list [site "x", site "y"])]
    let value : Value := .map [("k", .list [.map [("z", .null)], .str "s"]), ("more", .int 1)]
    (∃ u, pattern.instantiate [("x", .map [("z", .null)]), ("y", .str "s")] = .ok u ∧
      u.Embeds value) ∧
    ∃ bindings, pattern.match? 3 value = some bindings := by
  intro pattern value
  have hmatch : pattern.match? 3 value = some [("x", .map [("z", .null)]), ("y", .str "s")] := rfl
  have hvo : value.Ordered := by decide
  obtain ⟨hsound, hcomplete⟩ :=
    @match?_embeds pattern value (by decide) (by decide) hvo 3 (by decide)
  have hfilled : pattern.instantiate [("x", .map []), ("y", .str "s")] =
      .ok (.map [("k", .list [.map [], .str "s"])]) := rfl
  have hs : (Value.str "s").Embeds (.str "s") := (embeds_iff_of_isScalar rfl).2 rfl
  have hembeds : (Value.map [("k", .list [.map [], .str "s"])]).Embeds value :=
    embeds_map_iff.2 ⟨_, rfl, by simp [Entries.get?, embeds_list_iff, embeds_map_iff, hs]⟩
  exact ⟨hsound _ hmatch (by decide), hcomplete _ _ hfilled hembeds⟩

end Value

end TreeReduction
