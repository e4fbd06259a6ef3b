import Mathlib.Data.List.Forall2
import TreeReduction.Instantiation
import TreeReduction.Proofs.Parts

set_option autoImplicit false

/-!
# What instantiation builds

A body that is filled in keeps its shape: the lists their items, the maps their keys, and only its
variable sites are replaced. It depends on the bindings of the names of the body and on nothing
else, and what holds everywhere in the body and in the bindings holds everywhere in the result.

`Value.instantiate_eq` takes an instantiation apart into the two questions that it answers: which
name of the body is the first one without a binding, and what the body is when every site is
replaced (`Value.fill`).
-/

namespace TreeReduction

namespace Bindings

/-! ## Names without a binding -/

/-- The first of some names that is not bound. -/
def firstUnbound? (bindings : Bindings) (names : List String) : Option String :=
  names.find? fun name => (Entries.get? bindings name).isNone

variable (bindings : Bindings)

theorem firstUnbound?_append (names more : List String) :
    bindings.firstUnbound? (names ++ more) =
      (bindings.firstUnbound? names).or (bindings.firstUnbound? more) :=
  List.find?_append

theorem firstUnbound?_singleton (name : String) :
    bindings.firstUnbound? [name] =
      if (Entries.get? bindings name).isNone then some name else none :=
  List.find?_singleton

theorem firstUnbound?_eq_none_iff {names : List String} :
    bindings.firstUnbound? names = none ↔ ∀ name ∈ names, (Entries.get? bindings name).isSome := by
  simp [firstUnbound?, Option.isSome_iff_ne_none]

end Bindings

namespace Value

/-! ## The names of a tree -/

@[simp]
theorem variableNames_site (name : String) : (site name).variableNames = [name] := by
  simp [site, variableNames, siteName?]

theorem variableNames_of_isScalar {v : Value} (h : v.isScalar = true) : v.variableNames = [] := by
  cases v <;> simp_all [variableNames, isScalar]

theorem variableNamesItems_eq (items : List Value) :
    variableNamesItems items = items.flatMap variableNames := by
  induction items with
  | nil => rfl
  | cons x rest ih => rw [variableNamesItems, ih, List.flatMap_cons]

theorem variableNamesEntries_eq (entries : List (String × Value)) :
    variableNamesEntries entries = (entries.map (·.2)).flatMap variableNames := by
  induction entries with
  | nil => rfl
  | cons p rest ih => rw [variableNamesEntries, ih, List.map_cons, List.flatMap_cons]

theorem variableNames_list (items : List Value) :
    (Value.list items).variableNames = items.flatMap variableNames := by
  rw [variableNames, variableNamesItems_eq]

theorem variableNames_map {entries : List (String × Value)} (h : siteName? entries = none) :
    (Value.map entries).variableNames = (entries.map (·.2)).flatMap variableNames := by
  rw [variableNames, h]
  exact variableNamesEntries_eq entries

/-! ## One level of an instantiation -/

theorem instantiateItems_eq_ok_iff {bindings : Bindings} {items us : List Value} :
    instantiateItems bindings items = .ok us ↔
      List.Forall₂ (fun x u => x.instantiate bindings = .ok u) items us := by
  induction items generalizing us with
  | nil => simp [instantiateItems, eq_comm]
  | cons x rest ih =>
    rw [instantiateItems, List.forall₂_cons_left_iff]
    cases hx : x.instantiate bindings with
    | error e => simp
    | ok u =>
      cases hrest : instantiateItems bindings rest with
      | error e => simp [← ih, hrest, Except.map]
      | ok ws => simp [← ih, hrest, Except.map, eq_comm (a := us)]

theorem instantiateEntries_eq_ok_iff {bindings : Bindings} {entries us : List (String × Value)} :
    instantiateEntries bindings entries = .ok us ↔
      List.Forall₂ (fun p q => p.1 = q.1 ∧ p.2.instantiate bindings = .ok q.2) entries us := by
  induction entries generalizing us with
  | nil => simp [instantiateEntries, eq_comm]
  | cons p rest ih =>
    rw [instantiateEntries, List.forall₂_cons_left_iff]
    cases hp : p.2.instantiate bindings with
    | error e => simp
    | ok u =>
      cases hrest : instantiateEntries bindings rest with
      | error e => simp [← ih, hrest, Except.map]
      | ok ws => simp [← ih, hrest, Except.map, eq_comm (a := us), and_assoc]

theorem instantiate_of_isScalar {v : Value} (h : v.isScalar = true) (bindings : Bindings) :
    v.instantiate bindings = .ok v := by
  cases v <;> simp_all [instantiate, isScalar]

theorem instantiate_site_eq_ok_iff {bindings : Bindings} {name : String} {u : Value} :
    (site name).instantiate bindings = .ok u ↔ Entries.get? bindings name = some u := by
  rw [site, instantiate]
  simp only [siteName?, if_true]
  cases Entries.get? bindings name <;> simp

theorem instantiate_list_eq_ok_iff {bindings : Bindings} {items : List Value} {u : Value} :
    (Value.list items).instantiate bindings = .ok u ↔
      ∃ us, u = .list us ∧ List.Forall₂ (fun x w => x.instantiate bindings = .ok w) items us := by
  rw [instantiate]
  simp only [← instantiateItems_eq_ok_iff]
  cases instantiateItems bindings items <;> simp [Except.map, eq_comm]

theorem instantiate_map_eq_ok_iff {bindings : Bindings} {entries : List (String × Value)}
    {u : Value} (h : siteName? entries = none) :
    (Value.map entries).instantiate bindings = .ok u ↔
      ∃ us, u = .map us ∧
        List.Forall₂ (fun p q => p.1 = q.1 ∧ p.2.instantiate bindings = .ok q.2) entries us := by
  rw [instantiate, h]
  simp only [← instantiateEntries_eq_ok_iff]
  cases instantiateEntries bindings entries <;> simp [Except.map, eq_comm]

/-! ## The body with its sites replaced -/

mutual

/-- The tree with every variable site replaced by what its name is bound to. What is put in is not
looked into, and a site whose name is not bound stays. -/
def fill (bindings : Bindings) : Value → Value
  | .list items => .list (fillItems bindings items)
  | .map entries =>
    match siteName? entries with
    | some name => (Entries.get? bindings name).getD (.map entries)
    | none => .map (fillEntries bindings entries)
  | v => v

/-- The items with every variable site replaced. -/
def fillItems (bindings : Bindings) : List Value → List Value
  | [] => []
  | item :: rest => item.fill bindings :: fillItems bindings rest

/-- The entries with every variable site replaced in what they hold. -/
def fillEntries (bindings : Bindings) : List (String × Value) → List (String × Value)
  | [] => []
  | (key, value) :: rest => (key, value.fill bindings) :: fillEntries bindings rest

end

section Fill

variable (bindings : Bindings)

theorem fillItems_eq (items : List Value) :
    fillItems bindings items = items.map (fill bindings) := by
  induction items with
  | nil => rfl
  | cons x rest ih => rw [fillItems, ih, List.map_cons]

theorem fillEntries_eq (entries : List (String × Value)) :
    fillEntries bindings entries = Entries.mapValues (fill bindings) entries := by
  induction entries with
  | nil => rfl
  | cons p rest ih => rw [fillEntries, ih, Entries.mapValues_cons]

theorem fill_of_isScalar {v : Value} (h : v.isScalar = true) : v.fill bindings = v := by
  cases v <;> simp_all [fill, isScalar]

theorem fill_site (name : String) :
    (site name).fill bindings = (Entries.get? bindings name).getD (site name) := by
  rw [site, fill]
  simp [siteName?]

theorem fill_list (items : List Value) :
    (Value.list items).fill bindings = .list (items.map (fill bindings)) := by
  rw [fill, fillItems_eq]

theorem fill_map {entries : List (String × Value)} (h : siteName? entries = none) :
    (Value.map entries).fill bindings = .map (Entries.mapValues (fill bindings) entries) := by
  rw [fill, h]
  exact congrArg Value.map (fillEntries_eq bindings entries)

/-- What comes of an instantiation: a name that has no binding, or what was built. -/
def unlessUnbound {α : Type} (name? : Option String) (built : α) : Except UnboundVariable α :=
  match name? with
  | some name => .error ⟨name⟩
  | none => .ok built

theorem instantiateItems_eq {items : List Value}
    (h : ∀ x ∈ items, x.instantiate bindings =
      unlessUnbound (bindings.firstUnbound? x.variableNames) (x.fill bindings)) :
    instantiateItems bindings items =
      unlessUnbound (bindings.firstUnbound? (items.flatMap variableNames))
        (items.map (fill bindings)) := by
  induction items with
  | nil => rfl
  | cons x rest ih =>
    rw [List.forall_mem_cons] at h
    rw [instantiateItems, h.1, ih h.2, List.flatMap_cons, Bindings.firstUnbound?_append]
    cases bindings.firstUnbound? x.variableNames with
    | some name => rfl
    | none => cases bindings.firstUnbound? (rest.flatMap variableNames) <;> rfl

theorem instantiateEntries_eq {entries : List (String × Value)}
    (h : ∀ p ∈ entries, p.2.instantiate bindings =
      unlessUnbound (bindings.firstUnbound? p.2.variableNames) (p.2.fill bindings)) :
    instantiateEntries bindings entries =
      unlessUnbound (bindings.firstUnbound? ((entries.map (·.2)).flatMap variableNames))
        (Entries.mapValues (fill bindings) entries) := by
  induction entries with
  | nil => rfl
  | cons p rest ih =>
    rw [List.forall_mem_cons] at h
    rw [instantiateEntries, h.1, ih h.2, List.map_cons, List.flatMap_cons,
      Bindings.firstUnbound?_append]
    cases bindings.firstUnbound? p.2.variableNames with
    | some name => rfl
    | none => cases bindings.firstUnbound? ((rest.map (·.2)).flatMap variableNames) <;> rfl

/-- An instantiation fails at the first name of the body that is not bound, and otherwise replaces
every site. -/
theorem instantiate_eq (body : Value) :
    body.instantiate bindings =
      unlessUnbound (bindings.firstUnbound? body.variableNames) (body.fill bindings) := by
  induction body using induct with
  | scalar v hv =>
    rw [instantiate_of_isScalar hv, variableNames_of_isScalar hv, fill_of_isScalar bindings hv]
    rfl
  | list items ih =>
    rw [instantiate, instantiateItems_eq bindings ih, variableNames_list, fill_list]
    cases bindings.firstUnbound? (items.flatMap variableNames) <;> rfl
  | map entries ih =>
    cases hname : siteName? entries with
    | some name =>
      have hsite : Value.map entries = site name := variableName?_eq_some_iff.1 hname
      rw [hsite, variableNames_site, Bindings.firstUnbound?_singleton, fill_site, site, instantiate]
      simp only [siteName?, if_true]
      cases Entries.get? bindings name <;> rfl
    | none =>
      rw [instantiate, hname, variableNames_map hname, fill_map bindings hname]
      simp only [instantiateEntries_eq bindings ih]
      cases bindings.firstUnbound? ((entries.map (·.2)).flatMap variableNames) <;> rfl

theorem instantiate_eq_ok_iff {body u : Value} :
    body.instantiate bindings = .ok u ↔
      bindings.firstUnbound? body.variableNames = none ∧ u = body.fill bindings := by
  rw [instantiate_eq]
  cases bindings.firstUnbound? body.variableNames <;> simp [unlessUnbound, eq_comm]

theorem instantiate_eq_error_iff {body : Value} {unbound : UnboundVariable} :
    body.instantiate bindings = .error unbound ↔
      bindings.firstUnbound? body.variableNames = some unbound.name := by
  rw [instantiate_eq]
  cases bindings.firstUnbound? body.variableNames with
  | none => simp [unlessUnbound]
  | some name =>
    obtain ⟨other⟩ := unbound
    simp [unlessUnbound]

end Fill

/-! ## What is asked of the bindings -/

/-- Bindings that agree on the names of a body fill it in the same. -/
theorem instantiate_congr {b c : Bindings} {body u : Value}
    (hagree : ∀ name ∈ body.variableNames, Entries.get? c name = Entries.get? b name)
    (h : body.instantiate b = .ok u) : body.instantiate c = .ok u := by
  induction body using induct generalizing u with
  | scalar v hv => rwa [instantiate_of_isScalar hv] at h ⊢
  | list items ih =>
    rw [variableNames_list] at hagree
    obtain ⟨us, rfl, hus⟩ := instantiate_list_eq_ok_iff.1 h
    refine instantiate_list_eq_ok_iff.2 ⟨us, rfl, ?_⟩
    rw [List.forall₂_iff_zip] at hus ⊢
    refine ⟨hus.1, fun {x w} hxw => ?_⟩
    have hx : x ∈ items := (List.of_mem_zip hxw).1
    exact ih x hx (fun name hname => hagree name (List.mem_flatMap.2 ⟨x, hx, hname⟩)) (hus.2 hxw)
  | map entries ih =>
    cases hname : siteName? entries with
    | some name =>
      have hsite : Value.map entries = site name := variableName?_eq_some_iff.1 hname
      rw [hsite, instantiate_site_eq_ok_iff] at h ⊢
      rw [hagree name (by simp [hsite]), h]
    | none =>
      rw [variableNames_map hname] at hagree
      obtain ⟨us, rfl, hus⟩ := (instantiate_map_eq_ok_iff hname).1 h
      refine (instantiate_map_eq_ok_iff hname).2 ⟨us, rfl, ?_⟩
      rw [List.forall₂_iff_zip] at hus ⊢
      refine ⟨hus.1, fun {p q} hpq => ?_⟩
      have hp : p ∈ entries := (List.of_mem_zip hpq).1
      have hq := hus.2 hpq
      exact ⟨hq.1, ih p hp (fun name hname =>
        hagree name (List.mem_flatMap.2 ⟨p.2, List.mem_map.2 ⟨p, hp, rfl⟩, hname⟩)) hq.2⟩

/-! ## What holds everywhere -/

/-- A property of nodes that asks no more of a list than that it is one, and of a map no more than
what its keys are. -/
structure Shallow (P : Value → Prop) : Prop where
  list : ∀ items items' : List Value, P (.list items) → P (.list items')
  map : ∀ entries entries' : List (String × Value), entries'.map (·.1) = entries.map (·.1) →
    P (.map entries) → P (.map entries')

theorem exists_left_of_mem {α β : Type} {R : α → β → Prop} {xs : List α} {ys : List β}
    (h : List.Forall₂ R xs ys) {y : β} (hy : y ∈ ys) : ∃ x ∈ xs, R x y := by
  induction h with
  | nil => simp at hy
  | cons hxy _ ih =>
    rcases List.mem_cons.1 hy with rfl | hy
    · exact ⟨_, by simp, hxy⟩
    · obtain ⟨x, hx, hxy⟩ := ih hy
      exact ⟨x, by simp [hx], hxy⟩

/-- Entries that are filled in keep their keys. -/
theorem keys_eq_of_forall₂ {R : String × Value → String × Value → Prop}
    {entries us : List (String × Value)}
    (h : List.Forall₂ (fun p q => p.1 = q.1 ∧ R p q) entries us) :
    us.map (·.1) = entries.map (·.1) := by
  rw [← List.forall₂_eq_eq_eq, List.forall₂_map_left_iff, List.forall₂_map_right_iff]
  exact (h.imp fun p q hpq => hpq.1.symm).flip

/-- What holds everywhere in the body and in the bindings holds everywhere in what they make. -/
theorem everywhere_instantiate {P : Value → Prop} (hP : Shallow P) {bindings : Bindings}
    (hbindings : ∀ q ∈ bindings, (q.2 : Value).Everywhere P) {body u : Value}
    (hbody : body.Everywhere P) (h : body.instantiate bindings = .ok u) : u.Everywhere P := by
  induction body using induct generalizing u with
  | scalar v hv =>
    rw [instantiate_of_isScalar hv, Except.ok.injEq] at h
    exact h ▸ hbody
  | list items ih =>
    rw [everywhere_list_iff] at hbody
    obtain ⟨us, rfl, hus⟩ := instantiate_list_eq_ok_iff.1 h
    rw [everywhere_list_iff]
    refine ⟨hP.list items us hbody.1, fun w hw => ?_⟩
    obtain ⟨x, hx, hxw⟩ := exists_left_of_mem hus hw
    exact ih x hx (hbody.2 x hx) hxw
  | map entries ih =>
    cases hname : siteName? entries with
    | some name =>
      have hsite : Value.map entries = site name := variableName?_eq_some_iff.1 hname
      rw [hsite, instantiate_site_eq_ok_iff] at h
      exact hbindings _ (Entries.mem_of_get? h)
    | none =>
      rw [everywhere_map_iff] at hbody
      obtain ⟨us, rfl, hus⟩ := (instantiate_map_eq_ok_iff hname).1 h
      rw [everywhere_map_iff]
      refine ⟨hP.map entries us (keys_eq_of_forall₂ hus) hbody.1, fun q hq => ?_⟩
      obtain ⟨p, hp, -, hpq⟩ := exists_left_of_mem hus hq
      exact ih p hp (hbody.2 p hp) hpq

/-- What holds everywhere in what a body makes holds everywhere in the body, if it holds of variable
sites, which are all that is replaced. -/
theorem everywhere_of_instantiate {P : Value → Prop} (hP : Shallow P)
    (hsite : ∀ name, (site name).Everywhere P) {bindings : Bindings} {body u : Value}
    (h : body.instantiate bindings = .ok u) (hu : u.Everywhere P) : body.Everywhere P := by
  induction body using induct generalizing u with
  | scalar v hv =>
    rw [instantiate_of_isScalar hv, Except.ok.injEq] at h
    exact h ▸ hu
  | list items ih =>
    obtain ⟨us, rfl, hus⟩ := instantiate_list_eq_ok_iff.1 h
    rw [everywhere_list_iff] at hu ⊢
    refine ⟨hP.list us items hu.1, fun x hx => ?_⟩
    obtain ⟨w, hw, hxw⟩ := exists_left_of_mem hus.flip hx
    exact ih x hx hxw (hu.2 w hw)
  | map entries ih =>
    cases hname : siteName? entries with
    | some name =>
      have heq : Value.map entries = site name := variableName?_eq_some_iff.1 hname
      exact heq ▸ hsite name
    | none =>
      obtain ⟨us, rfl, hus⟩ := (instantiate_map_eq_ok_iff hname).1 h
      rw [everywhere_map_iff] at hu ⊢
      refine ⟨hP.map us entries (keys_eq_of_forall₂ hus).symm hu.1, fun p hp => ?_⟩
      obtain ⟨q, hq, -, hpq⟩ := exists_left_of_mem hus.flip hp
      exact ih p hp hpq (hu.2 q hq)

end Value

end TreeReduction
