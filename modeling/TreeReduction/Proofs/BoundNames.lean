import TreeReduction.Proofs.Steps

set_option autoImplicit false

/-!
# The names that a match binds

No spelling hides a variable site of a pattern and none makes one: a chain has the names of its
items, a chain of pairs those of what the pairs hold, and neither tags nor keys name anything
(`Value.variableNames_perm_of_dictionary`). So a match binds the names of its pattern and no others,
whichever children it compares (`Matching.mem_keys_extend_iff`).

Which name of a body is left without a binding is then the same for every value that matches:
`Projection.firstStray?` finds it in the projection alone, and `Kernel.match?_binds_names` says that
a step which fires the projection stalls for that name, or for none.
-/

namespace TreeReduction

open Value (Part variableNames)

namespace Linked

/-! ## The names of a chain -/

/-- A map with two entries is no variable site. -/
theorem variableNames_two (h t : String) (item rest : Value) :
    (Value.map [(h, item), (t, rest)]).variableNames =
      item.variableNames ++ rest.variableNames := by
  rw [Value.variableNames_map (by simp [Value.siteName?])]
  simp

theorem variableNames_of_items? {v : Value} {items : List Value} (h : items? v = some items) :
    v.variableNames = items.flatMap variableNames := by
  fun_induction items? v generalizing items with
  | case1 =>
    obtain rfl := Option.some.inj h
    rfl
  | case2 hd item tl rest hk ih =>
    obtain ⟨its, hits, rfl⟩ := Option.map_eq_some_iff.1 h
    rw [variableNames_two, ih hits, List.flatMap_cons]
  | case3 => simp at h
  | case4 => simp at h

theorem variableNames_of_pair? {v : Value} {p : String × Value} (h : pair? v = some p) :
    v.variableNames = p.2.variableNames := by
  unfold pair? at h
  split at h
  · split at h
    · obtain rfl := Option.some.inj h
      rw [variableNames_two, variableNames_two]
      simp [variableNames]
    · simp at h
  · simp at h

theorem variableNames_of_tagged? {entries : List (String × Value)} {tag : String}
    {items : List Value} (h : tagged? entries = some (tag, items)) :
    (Value.map entries).variableNames = items.flatMap variableNames := by
  unfold tagged? at h
  split at h
  · split at h
    · rename_i key text hkey
      obtain ⟨-, rfl⟩ := Prod.mk.inj (Option.some.inj h)
      have hsite : Value.siteName? [(key, .str text)] = none := by
        simp [Value.siteName?, hkey, typeKey, Value.variableKey]
      rw [Value.variableNames_map hsite]
      rfl
    · simp at h
  · split at h
    · obtain ⟨its, hits, he⟩ := Option.map_eq_some_iff.1 h
      obtain ⟨-, rfl⟩ := Prod.mk.inj he
      rw [Value.variableNames_map (by simp [Value.siteName?])]
      simp [variableNames, variableNames_of_items? hits]
    · simp at h
  · simp at h

theorem variableNames_of_mapM_pair? {items : List Value} {pairs : List (String × Value)}
    (h : items.mapM pair? = some pairs) :
    items.flatMap variableNames = (pairs.map (·.2)).flatMap variableNames := by
  induction items generalizing pairs with
  | nil =>
    obtain rfl := Option.some.inj h
    rfl
  | cons x rest ih =>
    simp only [List.mapM_cons, Option.bind_eq_bind, Option.pure_def, Option.bind_eq_some_iff,
      Option.some.injEq] at h
    obtain ⟨p, hp, ps, hps, rfl⟩ := h
    rw [List.flatMap_cons, List.map_cons, List.flatMap_cons, variableNames_of_pair? hp, ih hps]

/-- The entries stand in another order than the pairs that spell them. -/
theorem variableNames_perm_of_entries? {items : List Value} {entries : List (String × Value)}
    (h : entries? items = some entries) :
    (items.flatMap variableNames).Perm ((entries.map (·.2)).flatMap variableNames) := by
  unfold entries? at h
  split at h
  · rename_i pairs hpairs
    split at h
    · rename_i hnodup
      obtain rfl := Option.some.inj h
      rw [variableNames_of_mapM_pair? hpairs]
      exact (((Entries.ofList_perm hnodup).map _).flatMap_right variableNames).symm
    · simp at h
  · simp at h

end Linked

namespace Value

/-! ## The names of a view -/

theorem variableNames_of_sequence {v : Value} {items : List Value} (h : v.view = .sequence items) :
    v.variableNames = items.flatMap variableNames := by
  rcases view_eq_sequence_cases h with rfl | ⟨es, tag, rfl, -, htagged⟩
  · exact variableNames_list items
  · exact Linked.variableNames_of_tagged? htagged

/-- A dictionary shows every name as often as it stands in the tree. -/
theorem variableNames_perm_of_dictionary {v : Value} {entries : List (String × Value)}
    (hname : v.variableName? = none) (h : v.view = .dictionary entries) :
    v.variableNames.Perm ((entries.map (·.2)).flatMap variableNames) := by
  rcases view_eq_dictionary_cases h with ⟨rfl, -⟩ | ⟨es, tag, items, rfl, -, htagged, hentries⟩
  · rw [variableNames_map hname]
  · rw [Linked.variableNames_of_tagged? htagged]
    exact Linked.variableNames_perm_of_entries? hentries

end Value

namespace Matching

/-! ## The names of the children that are compared -/

theorem flatMap_fst (pairs : List (Value × Value)) :
    (pairs.map (·.1)).flatMap variableNames = pairs.flatMap fun q => q.1.variableNames :=
  List.flatMap_map _ _ _

/-- Every name of a pattern stands in a child that is compared, in either reading. -/
theorem variableNames_perm_of_pairs? {pattern value : Value} {pairs : List (Value × Value)}
    (hname : pattern.variableName? = none) (h : pairs? pattern value = some pairs) :
    pattern.variableNames.Perm (pairs.flatMap fun q => q.1.variableNames) := by
  rw [← flatMap_fst]
  unfold pairs? at h
  split at h
  · rename_i seen hview
    obtain rfl := Option.some.inj h
    unfold viewPairs? at hview
    split at hview
    · rename_i patterns values hpattern hvalue
      split at hview
      · rename_i hlength
        obtain rfl := Option.some.inj hview
        rw [List.map_fst_zip (by omega), Value.variableNames_of_sequence hpattern]
      · simp at hview
    · rename_i patterns values hpattern hvalue
      rw [map_fst_of_entryPairs? hview]
      exact Value.variableNames_perm_of_dictionary hname hpattern
    · simp at hview
  · unfold spelledPairs? at h
    split at h
    · split at h
      · simp at h
      · rw [map_fst_of_entryPairs? h, Value.variableNames_map hname]
    · simp at h

/-! ## The names that are bound -/

/-- A fold whose steps each bind the names of their own pattern binds the names of all of them. -/
theorem mem_keys_foldlM_iff {f : Bindings → Value × Value → Option Bindings}
    {pairs : List (Value × Value)} {bindings result : Bindings} {name : String}
    (hstep : ∀ q ∈ pairs, ∀ b c, f b q = some c →
      (name ∈ Entries.keys c ↔ name ∈ Entries.keys b ∨ name ∈ q.1.variableNames))
    (hfold : pairs.foldlM f bindings = some result) :
    name ∈ Entries.keys result ↔
      name ∈ Entries.keys bindings ∨ name ∈ pairs.flatMap fun q => q.1.variableNames := by
  induction pairs generalizing bindings with
  | nil =>
    obtain rfl := Option.some.inj hfold
    simp
  | cons q rest ih =>
    rw [List.forall_mem_cons] at hstep
    rw [List.foldlM_cons] at hfold
    obtain ⟨b, hb, hfold⟩ := Option.bind_eq_some_iff.1 hfold
    rw [ih hstep.2 hfold, hstep.1 bindings b hb, List.flatMap_cons, List.mem_append, or_assoc]

/-- A match adds the names of its pattern to what is bound. -/
theorem mem_keys_extend_iff (room : Nat) {pattern value : Value} {bindings result : Bindings}
    (h : extend room pattern value bindings = some result) (name : String) :
    name ∈ Entries.keys result ↔
      name ∈ Entries.keys bindings ∨ name ∈ pattern.variableNames := by
  induction room using Nat.strongRecOn generalizing pattern value bindings result with
  | ind room ih =>
    rcases extend_cases h with
      ⟨hscalar, -, rfl⟩ | ⟨own, hown, rfl⟩ | ⟨-, hnone, pairs, hpairs, hroom, hfold⟩
    · simp [Value.variableNames_of_isScalar hscalar]
    · rw [Bindings.mem_keys_bindFirst_iff, Value.variableName?_eq_some_iff.1 hown,
        Value.variableNames_site, List.mem_singleton, or_comm]
    · rw [(variableNames_perm_of_pairs? hnone hpairs).mem_iff]
      refine mem_keys_foldlM_iff (fun q hq b c hbc => ?_) hfold
      have hpos : 0 < room := hroom.resolve_left (List.ne_nil_of_mem hq)
      exact ih (room - 1) (by omega) hbc

/-- A match leaves names alone that are none of its pattern. -/
theorem get?_extend (room : Nat) {pattern value : Value} {bindings result : Bindings}
    (h : extend room pattern value bindings = some result) {name : String}
    (hname : name ∉ pattern.variableNames) :
    Entries.get? result name = Entries.get? bindings name := by
  induction room using Nat.strongRecOn generalizing pattern value bindings result with
  | ind room ih =>
    rcases extend_cases h with
      ⟨-, -, rfl⟩ | ⟨own, hown, rfl⟩ | ⟨-, hnone, pairs, hpairs, hroom, hfold⟩
    · rfl
    · rw [Value.variableName?_eq_some_iff.1 hown, Value.variableNames_site,
        List.mem_singleton] at hname
      exact Bindings.get?_bindFirst_of_ne bindings value (Ne.symm hname)
    · rw [(variableNames_perm_of_pairs? hnone hpairs).mem_iff, List.mem_flatMap] at hname
      refine foldlM_invariant (I := fun b => Entries.get? b name = Entries.get? bindings name)
        pairs bindings result (fun q hq b c hb hc => ?_) rfl hfold
      have hpos : 0 < room := hroom.resolve_left (List.ne_nil_of_mem hq)
      exact (ih (room - 1) (by omega) hc fun hin => hname ⟨q, hq, hin⟩).trans hb

end Matching

theorem Value.mem_keys_match?_iff {maxDepth : Nat} {pattern value : Value} {bindings : Bindings}
    (h : pattern.match? maxDepth value = some bindings) (name : String) :
    name ∈ Entries.keys bindings ↔ name ∈ pattern.variableNames := by
  rw [Matching.mem_keys_extend_iff maxDepth h]
  simp [Entries.keys]

/-! ## What a projection leaves without a binding -/

/-- The first name of the body that the pattern does not have. -/
def Projection.firstStray? (p : Projection) : Option String :=
  p.body.variableNames.find? fun name => !p.pattern.variableNames.contains name

namespace Kernel

variable {k : Kernel}

/-- Whatever a projection matches, the first name of its body without a binding is the same. -/
theorem firstUnbound?_of_match? {p : Projection} {v : Value} {bindings : Bindings}
    (h : k.match? p v = some bindings) :
    bindings.firstUnbound? p.body.variableNames = p.firstStray? := by
  unfold Bindings.firstUnbound? Projection.firstStray?
  congr 1
  funext name
  rw [Bool.eq_iff_iff, Option.isNone_iff_eq_none, Entries.get?_eq_none_iff,
    Value.mem_keys_match?_iff h]
  simp

/-- A match binds exactly the names of its pattern, in whatever spelling that and the value are, and
each to a part of the value. So a step that fires a projection stalls for an unbound name if and
only if the body has a name that the pattern does not have, and for the first such name, whatever
the value is. -/
theorem match?_binds_names {setLimits : Limits} {projections : List Projection}
    (hcatalog : Catalog.ofList setLimits projections = .ok k.catalog) :
    (∀ maxDepth pattern value bindings, Value.match? maxDepth pattern value = some bindings →
      (∀ name, name ∈ Entries.keys bindings ↔ name ∈ pattern.variableNames) ∧
      ∀ q ∈ bindings, Part q.2 value) ∧
    ∀ v, k.accept v = .ok () → ∃ o, k.outcome v = .ok o ∧
      ∀ p ∈ k.catalog.projections, o.fired? = some p.id →
        ∀ name, o = .stalled (.unbound p.id name) ↔ p.firstStray? = some name := by
  refine ⟨fun maxDepth pattern value bindings hmatch => ?_, fun v hv => ?_⟩
  · exact ⟨Value.mem_keys_match?_iff hmatch, fun q hq => Value.part_of_mem_match? hmatch hq⟩
  · refine ⟨_, outcome_of_accept hv, fun p hp hfired name => ?_⟩
    obtain ⟨bindings, hfirst, hcommit⟩ := firstMatch_of_fired? hcatalog hp hfired
    rw [hcommit, commit_eq_unbound_iff, and_iff_right rfl, firstUnbound?_of_match? hfirst.match?_eq]

/-- A catalog with a chain for a pattern, whose body asks for more than the chain names. -/
def asking : Kernel :=
  ⟨⟨[⟨"ask", Linked.ofItems [.site "x", Linked.ofItems [.site "y"]],
    .list [.site "y", .site "z", .map [("k", .site "w")]]⟩]⟩, {}⟩

/-- The value is spelled the other way. -/
theorem match?_binds_names_asking :
    let pattern := Linked.ofItems [.site "x", Linked.ofItems [.site "y"]]
    let value : Value := .list [.int 1, .list [.str "a"]]
    let bindings : Bindings := [("x", .int 1), ("y", .str "a")]
    Catalog.ofList {} asking.catalog.projections = .ok asking.catalog ∧
      asking.accept value = .ok () ∧ pattern.match? 2 value = some bindings ∧
      (∀ name, name ∈ Entries.keys bindings ↔ name ∈ pattern.variableNames) ∧
      asking.outcome value = .ok (.stalled (.unbound "ask" "z")) := by
  intro pattern value bindings
  have hcatalog : Catalog.ofList {} asking.catalog.projections = .ok asking.catalog := rfl
  have hv : asking.accept value = .ok () := rfl
  have hmatch : pattern.match? 2 value = some bindings := rfl
  obtain ⟨hnames, hsteps⟩ := match?_binds_names hcatalog
  obtain ⟨o, ho, hstalls⟩ := hsteps value hv
  have hfired : o.fired? = some "ask" := by
    have hcomputed : (asking.outcome value).map (·.fired?) = .ok (some "ask") := rfl
    rw [ho] at hcomputed
    exact Except.ok.inj hcomputed
  have hstall : o = .stalled (.unbound "ask" "z") :=
    (hstalls _ (List.mem_singleton_self _) hfired "z").2 rfl
  exact ⟨hcatalog, hv, hmatch, (hnames _ _ _ _ hmatch).1, hstall ▸ ho⟩

end Kernel

end TreeReduction
