import Mathlib.Data.List.Forall2
import Mathlib.Data.List.Nodup
import TreeReduction.Kernel
import TreeReduction.Proofs.Parts

set_option autoImplicit false

/-!
# Admission

What the checks at the border let in, said without the checks. `Value.check` goes through a tree
with a level and stops at the first fault, and `Kernel.accept` adds a search for reserved keys; a
value passes both exactly when it is `Value.Admissible`: its depth and width keep the limits, its
floating-point numbers are finite and allowed, and none of its maps has a reserved key.

A catalog holds nothing but projections that passed, so the bodies it fires are admissible under the
limits of the catalog.
-/

namespace TreeReduction

/-- What becomes of a result is a result exactly when there was one. -/
theorem map_eq_ok_iff {ε α β : Type} {f : α → β} {x : Except ε α} {y : β} :
    x.map f = .ok y ↔ ∃ a, x = .ok a ∧ f a = y := by
  cases x <;> simp [Except.map]

/-- What becomes of a failure is this failure. -/
theorem map_eq_error_iff {ε α β : Type} {f : α → β} {x : Except ε α} {e : ε} :
    x.map f = .error e ↔ x = .error e := by
  cases x <;> simp [Except.map]

/-- A list of results has a result for each member. -/
theorem mapM_eq_ok_iff {ε α β : Type} {f : α → Except ε β} {xs : List α} {ys : List β} :
    xs.mapM f = .ok ys ↔ List.Forall₂ (fun x y => f x = .ok y) xs ys := by
  induction xs generalizing ys with
  | nil => simp [pure, Except.pure, eq_comm]
  | cons x rest ih =>
    rw [List.mapM_cons, List.forall₂_cons_left_iff]
    cases f x with
    | error e => simp [bind, Except.bind]
    | ok y =>
      simp only [← ih, Except.ok.injEq, bind, Except.bind]
      cases rest.mapM f with
      | error e => simp
      | ok others => simp [pure, Except.pure, eq_comm]

/-- What comes of all members of a list leads back to it, and has a property, if this is so of each
member. -/
theorem of_mapM_eq_ok {ε α β : Type} {f : α → Except ε β} {back : β → α} {P : β → Prop}
    {xs : List α} {ys : List β} (h : ∀ x ∈ xs, ∀ y, f x = .ok y → back y = x ∧ P y)
    (hread : xs.mapM f = .ok ys) : ys.map back = xs ∧ ∀ y ∈ ys, P y := by
  rw [mapM_eq_ok_iff] at hread
  induction hread with
  | nil => simp
  | cons hy _ ih =>
    obtain ⟨hx, hrest⟩ := List.forall_mem_cons.1 h
    obtain ⟨hback, hP⟩ := hx _ hy
    obtain ⟨hbacks, hPs⟩ := ih hrest
    rw [List.map_cons, hback, hbacks]
    exact ⟨rfl, List.forall_mem_cons.2 ⟨hP, hPs⟩⟩

namespace Value

/-! ## Depth and width -/

theorem depthItems_le_iff (items : List Value) (n : Nat) :
    depthItems items ≤ n ↔ ∀ x ∈ items, x.depth ≤ n := by
  induction items with
  | nil => simp [depthItems]
  | cons x rest ih => rw [depthItems, Nat.max_le, ih, List.forall_mem_cons]

theorem widthItems_le_iff (items : List Value) (n : Nat) :
    widthItems items ≤ n ↔ ∀ x ∈ items, x.width ≤ n := by
  induction items with
  | nil => simp [widthItems]
  | cons x rest ih => rw [widthItems, Nat.max_le, ih, List.forall_mem_cons]

/-- The entries of a map are as deep as a list of what they hold. -/
theorem depthEntries_eq (entries : List (String × Value)) :
    depthEntries entries = depthItems (entries.map (·.2)) := by
  induction entries with
  | nil => rfl
  | cons p rest ih => simp only [depthEntries, List.map_cons, depthItems, ih]

/-- The entries of a map are as wide as a list of what they hold. -/
theorem widthEntries_eq (entries : List (String × Value)) :
    widthEntries entries = widthItems (entries.map (·.2)) := by
  induction entries with
  | nil => rfl
  | cons p rest ih => simp only [widthEntries, List.map_cons, widthItems, ih]

theorem depth_of_isScalar {v : Value} (h : v.isScalar = true) : v.depth = 0 := by
  cases v <;> simp_all [isScalar, depth]

theorem width_of_isScalar {v : Value} (h : v.isScalar = true) : v.width = 0 := by
  cases v <;> simp_all [isScalar, width]

/-- Room for a container is room for itself and, one level down, for each of its children. -/
theorem level_depthItems_le_iff (items : List Value) (level most : Nat) :
    level + (depthItems items + 1) ≤ most ↔
      level + 1 ≤ most ∧ ∀ x ∈ items, 0 < x.depth → level + 1 + x.depth ≤ most := by
  constructor
  · intro h
    refine ⟨by omega, fun x hx _ => ?_⟩
    have hx' := (depthItems_le_iff items _).1 (Nat.le_refl _) x hx
    omega
  · rintro ⟨hself, hitems⟩
    have hle : depthItems items ≤ most - (level + 1) := by
      rw [depthItems_le_iff]
      intro x hx
      have := hitems x hx
      omega
    omega

/-- A value overruns nothing exactly when it is within both bounds. -/
theorem overrun?_eq_none_iff (v : Value) (limits : Limits) :
    v.overrun? limits = none ↔ v.depth ≤ limits.maxDepth ∧ v.width ≤ limits.maxWidth := by
  unfold overrun?
  split
  · simp; omega
  · split
    · simp; omega
    · simp; omega

end Value

/-! ## The checks of single nodes -/

namespace Limits

theorem checkContainer_eq_ok_iff (limits : Limits) (level width : Nat) :
    limits.checkContainer level width = .ok () ↔
      level + 1 ≤ limits.maxDepth ∧ width ≤ limits.maxWidth := by
  unfold checkContainer
  split
  · simp; omega
  · split
    · simp; omega
    · simp; omega

theorem checkFloat_eq_ok_iff (limits : Limits) (x : Binary64) :
    limits.checkFloat x = .ok () ↔ x.isFinite = true ∧ limits.allowFloats = true := by
  unfold checkFloat
  cases x.isFinite <;> cases limits.allowFloats <;> simp

end Limits

/-! ## The check of a tree -/

namespace Value

theorem checkItems_eq_ok_iff (limits : Limits) (level : Nat) (items : List Value) :
    checkItems limits level items = .ok () ↔ ∀ x ∈ items, x.checkAt limits level = .ok () := by
  induction items with
  | nil => simp [checkItems]
  | cons x rest ih =>
    rw [List.forall_mem_cons, ← ih, checkItems]
    cases checkItems limits level rest with
    | error e => simp
    | ok _ => simp

theorem checkEntries_eq (limits : Limits) (level : Nat) (entries : List (String × Value)) :
    checkEntries limits level entries = checkItems limits level (entries.map (·.2)) := by
  induction entries with
  | nil => rfl
  | cons p rest ih => simp only [checkEntries, List.map_cons, checkItems, ih]

/-- What `checkAt` holds a tree to. A scalar may lie at any level; all else has to end within the
deepest one. -/
structure Passes (limits : Limits) (level : Nat) (v : Value) : Prop where
  depth_le : 0 < v.depth → level + v.depth ≤ limits.maxDepth
  width_le : v.width ≤ limits.maxWidth
  floats : v.Everywhere fun u => ∀ x, u = .float x → limits.checkFloat x = .ok ()

/-- A container with `n` children passes when it is within the bounds and its children pass. -/
theorem passes_container {limits : Limits} {level : Nat} {items : List Value} :
    (limits.checkContainer level items.length = .ok () ∧
        ∀ x ∈ items, x.Passes limits (level + 1)) ↔
      level + (depthItems items + 1) ≤ limits.maxDepth ∧
        max items.length (widthItems items) ≤ limits.maxWidth ∧
          ∀ x ∈ items, x.Everywhere fun u => ∀ y, u = .float y → limits.checkFloat y = .ok () := by
  rw [Limits.checkContainer_eq_ok_iff, level_depthItems_le_iff, Nat.max_le, widthItems_le_iff]
  constructor
  · rintro ⟨⟨hlevel, hwidth⟩, hitems⟩
    exact ⟨⟨hlevel, fun x hx => (hitems x hx).depth_le⟩,
      ⟨hwidth, fun x hx => (hitems x hx).width_le⟩, fun x hx => (hitems x hx).floats⟩
  · rintro ⟨⟨hlevel, hdepths⟩, ⟨hwidth, hwidths⟩, hfloats⟩
    exact ⟨⟨hlevel, hwidth⟩, fun x hx => ⟨hdepths x hx, hwidths x hx, hfloats x hx⟩⟩

theorem checkAt_eq_ok_iff (limits : Limits) (level : Nat) (v : Value) :
    v.checkAt limits level = .ok () ↔ v.Passes limits level := by
  induction v using induct generalizing level with
  | scalar v hv =>
    have hpasses : v.Passes limits level ↔
        ∀ x, v = .float x → limits.checkFloat x = .ok () := by
      refine ⟨fun h => h.floats.self, fun h => ⟨?_, ?_, (everywhere_scalar_iff hv).2 h⟩⟩
      · simp [depth_of_isScalar hv]
      · simp [width_of_isScalar hv]
    rw [hpasses]
    cases v <;> simp_all [checkAt, isScalar]
  | list items ih =>
    have hpasses : (Value.list items).Passes limits level ↔
        limits.checkContainer level items.length = .ok () ∧
          ∀ x ∈ items, x.Passes limits (level + 1) := by
      rw [passes_container]
      constructor
      · rintro ⟨hdepth, hwidth, hfloats⟩
        exact ⟨hdepth (Nat.succ_pos _), hwidth, ((everywhere_list_iff items).1 hfloats).2⟩
      · rintro ⟨hdepth, hwidth, hfloats⟩
        exact ⟨fun _ => hdepth, hwidth, (everywhere_list_iff items).2 ⟨by simp, hfloats⟩⟩
    rw [hpasses]
    unfold checkAt
    cases limits.checkContainer level items.length with
    | error e => simp
    | ok _ =>
      simp only [true_and]
      rw [checkItems_eq_ok_iff]
      exact forall₂_congr fun x hx => ih x hx (level + 1)
  | map entries ih =>
    have hpasses : (Value.map entries).Passes limits level ↔
        limits.checkContainer level (entries.map (·.2)).length = .ok () ∧
          ∀ x ∈ entries.map (·.2), x.Passes limits (level + 1) := by
      rw [passes_container]
      constructor
      · rintro ⟨hdepth, hwidth, hfloats⟩
        simp only [depth, width, depthEntries_eq, widthEntries_eq] at hdepth hwidth
        refine ⟨hdepth (Nat.succ_pos _), by simpa using hwidth, ?_⟩
        rw [List.forall_mem_map]
        exact ((everywhere_map_iff entries).1 hfloats).2
      · rintro ⟨hdepth, hwidth, hfloats⟩
        refine ⟨fun _ => ?_, ?_, (everywhere_map_iff entries).2 ⟨by simp, fun p hp => ?_⟩⟩
        · simpa only [depth, depthEntries_eq] using hdepth
        · simpa [width, widthEntries_eq] using hwidth
        · exact hfloats p.2 (List.mem_map_of_mem hp)
    rw [hpasses]
    unfold checkAt
    rw [List.length_map]
    cases limits.checkContainer level entries.length with
    | error e => simp
    | ok _ =>
      simp only [true_and]
      rw [checkEntries_eq, checkItems_eq_ok_iff]
      simp only [List.forall_mem_map]
      exact forall₂_congr fun p hp => ih p hp (level + 1)

/-- The floating-point numbers of a tree are finite and allowed. -/
def FloatsWithin (limits : Limits) (v : Value) : Prop :=
  v.FiniteFloats ∧ (limits.allowFloats = true ∨ v.FloatFree)

theorem floatsWithin_iff (limits : Limits) (v : Value) :
    v.FloatsWithin limits ↔
      v.Everywhere fun u => ∀ x, u = .float x → limits.checkFloat x = .ok () := by
  simp only [Limits.checkFloat_eq_ok_iff]
  constructor
  · rintro ⟨hfinite, hallowed⟩ u hu x hx
    refine ⟨hfinite u hu x hx, ?_⟩
    rcases hallowed with hallowed | hfree
    · exact hallowed
    · exact absurd hx (hfree u hu x)
  · intro h
    refine ⟨fun u hu x hx => (h u hu x hx).1, ?_⟩
    cases hallowed : limits.allowFloats with
    | true => exact .inl rfl
    | false =>
      refine .inr fun u hu x hx => ?_
      simpa [hallowed] using (h u hu x hx).2

/-- The check of a tree lets in what keeps the bounds and holds no other floating-point numbers than
it may. -/
theorem check_eq_ok_iff (limits : Limits) (v : Value) :
    v.check limits = .ok () ↔
      v.depth ≤ limits.maxDepth ∧ v.width ≤ limits.maxWidth ∧ v.FloatsWithin limits := by
  unfold check
  rw [checkAt_eq_ok_iff, floatsWithin_iff]
  constructor
  · rintro ⟨hdepth, hwidth, hfloats⟩
    exact ⟨by omega, hwidth, hfloats⟩
  · rintro ⟨hdepth, hwidth, hfloats⟩
    exact ⟨by omega, hwidth, hfloats⟩

/-- Items that pass unless a floating-point number is forbidden pass together unless one is. -/
theorem checkItems_cases {limits : Limits} {level : Nat} {items : List Value}
    (h : ∀ x ∈ items,
      x.checkAt limits level = .ok () ∨ x.checkAt limits level = .error .floatNotPermitted) :
    checkItems limits level items = .ok () ∨
      checkItems limits level items = .error .floatNotPermitted := by
  induction items with
  | nil => exact .inl rfl
  | cons x rest ih =>
    obtain ⟨hx, hrest⟩ := List.forall_mem_cons.1 h
    rcases ih hrest with hok | herror
    · rw [checkItems, hok]
      exact hx
    · exact .inr (by rw [checkItems, herror])

/-- What passes where floating-point numbers are allowed can only break the rule that forbids
them. -/
theorem checkAt_of_allowed {limits : Limits} {level : Nat} {v : Value}
    (h : v.checkAt { limits with allowFloats := true } level = .ok ()) :
    v.checkAt limits level = .ok () ∨ v.checkAt limits level = .error .floatNotPermitted := by
  -- the bounds of a container are the same on both sides, so only the leaves can differ
  have hsame : ∀ n, { limits with allowFloats := true }.checkContainer level n =
      limits.checkContainer level n := fun _ => rfl
  induction v using induct generalizing level with
  | scalar v hv =>
    cases v with
    | float x =>
      obtain ⟨hfinite, -⟩ := (Limits.checkFloat_eq_ok_iff _ x).1 h
      cases hallowed : limits.allowFloats <;> simp [checkAt, Limits.checkFloat, hfinite, hallowed]
    | list | map => simp [isScalar] at hv
    | _ => exact .inl rfl
  | list items ih =>
    unfold checkAt at h ⊢
    rw [hsame] at h
    cases hcontainer : limits.checkContainer level items.length with
    | error e => simp [hcontainer] at h
    | ok _ =>
      simp only [hcontainer, checkItems_eq_ok_iff] at h
      exact checkItems_cases fun x hx => ih x hx (h x hx) fun _ => rfl
  | map entries ih =>
    unfold checkAt at h ⊢
    rw [hsame] at h
    cases hcontainer : limits.checkContainer level entries.length with
    | error e => simp [hcontainer] at h
    | ok _ =>
      simp only [hcontainer, checkEntries_eq, checkItems_eq_ok_iff, List.forall_mem_map] at h
      simp only [checkEntries_eq]
      refine checkItems_cases ?_
      rw [List.forall_mem_map]
      exact fun p hp => ih p hp (h p hp) fun _ => rfl

/-! ## Reserved keys -/

theorem reservedKeyItems?_eq_none_iff (items : List Value) :
    reservedKeyItems? items = none ↔ ∀ x ∈ items, x.reservedKey? = none := by
  induction items with
  | nil => simp [reservedKeyItems?]
  | cons x rest ih =>
    rw [List.forall_mem_cons, ← ih, reservedKeyItems?]
    cases reservedKeyItems? rest with
    | none => simp
    | some key => simp

theorem reservedKeyEntries?_eq (entries : List (String × Value)) :
    reservedKeyEntries? entries = reservedKeyItems? (entries.map (·.2)) := by
  induction entries with
  | nil => rfl
  | cons p rest ih => simp only [reservedKeyEntries?, List.map_cons, reservedKeyItems?, ih]

theorem unreserved_list_iff (items : List Value) :
    (Value.list items).Unreserved ↔ ∀ x ∈ items, x.Unreserved := by
  simp only [Unreserved, lacks_list_iff]
  exact ⟨fun h x hx key hk => h key hk x hx, fun h key hk x hx => h x hx key hk⟩

theorem unreserved_map_iff (entries : List (String × Value)) :
    (Value.map entries).Unreserved ↔
      (∀ p ∈ entries, p.1 ∉ reservedKeys) ∧ ∀ p ∈ entries, (p.2 : Value).Unreserved := by
  simp only [Unreserved, lacks_map_iff]
  constructor
  · exact fun h => ⟨fun p hp hk => (h p.1 hk).1 p hp rfl, fun p hp key hk => (h key hk).2 p hp⟩
  · rintro ⟨hkeys, hvalues⟩ key hk
    exact ⟨fun p hp heq => hkeys p hp (heq ▸ hk), fun p hp => hvalues p hp key hk⟩

theorem reservedKey?_eq_none_iff (v : Value) : v.reservedKey? = none ↔ v.Unreserved := by
  induction v using induct with
  | scalar v hv =>
    have hkey : v.reservedKey? = none := by cases v <;> simp_all [reservedKey?, isScalar]
    exact iff_of_true hkey fun key _ => lacks_of_isScalar key hv
  | list items ih =>
    rw [unreserved_list_iff, reservedKey?, reservedKeyItems?_eq_none_iff]
    exact forall₂_congr ih
  | map entries ih =>
    rw [unreserved_map_iff]
    unfold reservedKey?
    split
    · rename_i p hp
      have hmem := List.mem_of_find?_eq_some hp
      have hkey := List.find?_some hp
      refine iff_of_false (by simp) fun h => h.1 p hmem ?_
      simpa using hkey
    · rename_i hnone
      rw [List.find?_eq_none] at hnone
      rw [reservedKeyEntries?_eq, reservedKeyItems?_eq_none_iff, List.forall_mem_map]
      constructor
      · intro h
        exact ⟨fun p hp => by simpa using hnone p hp, fun p hp => (ih p hp).1 (h p hp)⟩
      · exact fun h p hp => (ih p hp).2 (h.2 p hp)

theorem refuseReserved_eq_ok_iff (v : Value) : v.refuseReserved = .ok () ↔ v.Unreserved := by
  rw [← reservedKey?_eq_none_iff]
  unfold refuseReserved
  split
  · rename_i h
    simp [h]
  · rename_i h
    simp [h]

/-! ## Admissible values -/

/-- What a value has to be to enter under some limits. -/
structure Admissible (limits : Limits) (v : Value) : Prop where
  depth_le : v.depth ≤ limits.maxDepth
  width_le : v.width ≤ limits.maxWidth
  floats : v.FloatsWithin limits
  unreserved : v.Unreserved

theorem admissible_iff (limits : Limits) (v : Value) :
    v.Admissible limits ↔ v.check limits = .ok () ∧ v.refuseReserved = .ok () := by
  rw [check_eq_ok_iff, refuseReserved_eq_ok_iff]
  constructor
  · rintro ⟨hdepth, hwidth, hfloats, hkeys⟩
    exact ⟨⟨hdepth, hwidth, hfloats⟩, hkeys⟩
  · rintro ⟨⟨hdepth, hwidth, hfloats⟩, hkeys⟩
    exact ⟨hdepth, hwidth, hfloats, hkeys⟩

end Value

/-- A kernel accepts what is admissible under its limits. -/
theorem Kernel.accept_eq_ok_iff (k : Kernel) (v : Value) :
    k.accept v = .ok () ↔ v.Admissible k.limits := by
  rw [Value.admissible_iff]
  unfold accept
  cases v.check k.limits with
  | error e => simp
  | ok _ => simp

/-! ## Catalogs -/

namespace Projection

/-- What a side of a projection has to be: admissible, with a name for each variable site. -/
theorem checkSide_eq_ok_iff (limits : Limits) (side : Value) :
    checkSide limits side = .ok () ↔ side.Admissible limits ∧ "" ∉ side.variableNames := by
  rw [Value.admissible_iff]
  unfold checkSide
  cases side.check limits with
  | error e => simp
  | ok _ =>
    cases side.refuseReserved with
    | error e => simp
    | ok _ => simp

/-- What a projection has to be to enter under some limits. -/
structure Fit (limits : Limits) (p : Projection) : Prop where
  id_valid : isValidId p.id = true
  pattern : p.pattern.Admissible limits
  pattern_named : "" ∉ p.pattern.variableNames
  body : p.body.Admissible limits
  body_named : "" ∉ p.body.variableNames

theorem check_eq_ok_iff (limits : Limits) (p : Projection) :
    p.check limits = .ok () ↔ p.Fit limits := by
  have hsides : p.check limits = .ok () ↔
      isValidId p.id = true ∧ checkSide limits p.pattern = .ok () ∧
        checkSide limits p.body = .ok () := by
    unfold check
    cases isValidId p.id with
    | false => simp
    | true => cases checkSide limits p.pattern <;> simp
  rw [hsides, checkSide_eq_ok_iff, checkSide_eq_ok_iff]
  constructor
  · rintro ⟨hid, ⟨hpattern, hpatterns⟩, hbody, hbodies⟩
    exact ⟨hid, hpattern, hpatterns, hbody, hbodies⟩
  · rintro ⟨hid, hpattern, hpatterns, hbody, hbodies⟩
    exact ⟨hid, ⟨hpattern, hpatterns⟩, hbody, hbodies⟩

end Projection

namespace Catalog

/-- Projections pass together when each passes and they have ids of their own, none of which was
seen before. -/
theorem checkEach_eq_ok_iff (limits : Limits) (seen : List String) (ps : List Projection) :
    checkEach limits seen ps = .ok () ↔
      (∀ p ∈ ps, p.Fit limits) ∧ (∀ p ∈ ps, p.id ∉ seen) ∧ (ps.map (·.id)).Nodup := by
  induction ps generalizing seen with
  | nil => simp [checkEach]
  | cons p rest ih =>
    rw [List.forall_mem_cons, List.forall_mem_cons, List.map_cons, List.nodup_cons,
      ← Projection.check_eq_ok_iff, checkEach]
    cases p.check limits with
    | error e => simp
    | ok _ =>
      by_cases hseen : p.id ∈ seen
      · simp [hseen]
      · have hnew : (∀ q ∈ rest, q.id ∉ p.id :: seen) ↔
            (∀ q ∈ rest, q.id ∉ seen) ∧ p.id ∉ rest.map (·.id) := by
          simp only [List.mem_cons, not_or, List.mem_map, not_exists, not_and]
          exact ⟨fun h => ⟨fun q hq => (h q hq).2, fun q hq => (h q hq).1⟩,
            fun h q hq => ⟨h.2 q hq, h.1 q hq⟩⟩
        simp only [List.contains_eq_mem, hseen, decide_false, Bool.false_eq_true, if_false,
          not_false_eq_true, true_and, ih, hnew, and_assoc]

/-- A list of projections makes a catalog when it is not too long and its members pass together. -/
theorem ofList_eq_ok_iff (limits : Limits) (ps : List Projection) (c : Catalog) :
    ofList limits ps = .ok c ↔
      c = ⟨ps⟩ ∧ ps.length ≤ maxProjections ∧ (∀ p ∈ ps, p.Fit limits) ∧
        (ps.map (·.id)).Nodup := by
  have hcheck := checkEach_eq_ok_iff limits [] ps
  simp only [List.not_mem_nil, not_false_eq_true, implies_true, true_and] at hcheck
  rw [← hcheck, ofList]
  by_cases hlong : maxProjections < ps.length
  · simp [hlong, Nat.not_le.2 hlong]
  · rw [if_neg hlong, and_iff_right (Nat.not_lt.1 hlong)]
    cases checkEach limits [] ps with
    | error e => simp
    | ok _ => simp [eq_comm]

/-- What is wrong with a projection that is declared behind others with the given ids: it does not
pass its own check, or it does and has one of these ids. -/
inductive FaultOf (limits : Limits) (ids : List String) (p : Projection) : Violation → Prop where
  | invalid {v : Violation} (hcheck : p.check limits = .error v) : FaultOf limits ids p v
  | repeated (hcheck : p.check limits = .ok ()) (hid : p.id ∈ ids) :
      FaultOf limits ids p (.duplicateProjectionId p.id)

/-- Projections behind others are checked once the others have passed, against their ids as well. -/
theorem checkEach_append (limits : Limits) (seen : List String) (xs ys : List Projection) :
    checkEach limits seen (xs ++ ys) =
      match checkEach limits seen xs with
      | .error v => .error v
      | .ok _ => checkEach limits ((xs.map (·.id)).reverse ++ seen) ys := by
  induction xs generalizing seen with
  | nil => rfl
  | cons p rest ih =>
    rw [List.cons_append, checkEach, checkEach]
    cases p.check limits with
    | error v => rfl
    | ok _ =>
      cases hseen : seen.contains p.id with
      | true => simp
      | false => simp [ih]

theorem checkEach_cons_of_faultOf {limits : Limits} {seen : List String} {p : Projection}
    {v : Violation} (h : FaultOf limits seen p v) (rest : List Projection) :
    checkEach limits seen (p :: rest) = .error v := by
  rw [checkEach]
  cases h with
  | invalid hcheck => rw [hcheck]
  | repeated hcheck hid => simp [hcheck, hid]

theorem faultOf_congr {limits : Limits} {ids others : List String}
    (h : ∀ id, id ∈ ids ↔ id ∈ others) {p : Projection} {v : Violation}
    (hfault : FaultOf limits ids p v) : FaultOf limits others p v := by
  cases hfault with
  | invalid hcheck => exact .invalid hcheck
  | repeated hcheck hid => exact .repeated hcheck ((h p.id).1 hid)

/-- Projections fail together at the first of them that is at fault. -/
theorem checkEach_eq_error_iff_faultOf {limits : Limits} {seen : List String}
    {ps : List Projection} {v : Violation} :
    checkEach limits seen ps = .error v ↔
      ∃ earlier p later, ps = earlier ++ p :: later ∧ checkEach limits seen earlier = .ok () ∧
        FaultOf limits (earlier.map (·.id) ++ seen) p v := by
  constructor
  · intro h
    induction ps generalizing seen with
    | nil => simp [checkEach] at h
    | cons p rest ih =>
      rw [checkEach] at h
      cases hcheck : p.check limits with
      | error w =>
        rw [hcheck] at h
        obtain rfl := Except.error.inj h
        exact ⟨[], p, rest, rfl, rfl, .invalid hcheck⟩
      | ok _ =>
        simp only [hcheck, List.contains_eq_mem, decide_eq_true_eq] at h
        split at h
        · rename_i hseen
          obtain rfl := Except.error.inj h
          exact ⟨[], p, rest, rfl, rfl, .repeated hcheck hseen⟩
        · rename_i hseen
          obtain ⟨earlier, q, later, rfl, hearlier, hfault⟩ := ih h
          refine ⟨p :: earlier, q, later, rfl, ?_, faultOf_congr (fun id => ?_) hfault⟩
          · simp [checkEach, hcheck, hseen, hearlier]
          · simp [or_left_comm]
  · rintro ⟨earlier, p, later, rfl, hearlier, hfault⟩
    rw [checkEach_append, hearlier]
    exact checkEach_cons_of_faultOf (faultOf_congr (by simp) hfault) later

/-- Projections that are fit fail together at the first id that stands twice or was seen before. -/
theorem checkEach_eq_error_iff {limits : Limits} {ps : List Projection}
    (hfit : ∀ p ∈ ps, p.Fit limits) (seen : List String) (v : Violation) :
    checkEach limits seen ps = .error v ↔
      ∃ before id after, ps.map (·.id) = before ++ id :: after ∧ (∀ b ∈ before, b ∉ seen) ∧
        before.Nodup ∧ (id ∈ before ∨ id ∈ seen) ∧ v = .duplicateProjectionId id := by
  rw [checkEach_eq_error_iff_faultOf]
  constructor
  · rintro ⟨earlier, p, later, rfl, hearlier, hfault⟩
    obtain ⟨-, hunseen, hnodup⟩ := (checkEach_eq_ok_iff limits seen earlier).1 hearlier
    have hcheck : p.check limits = .ok () :=
      (Projection.check_eq_ok_iff limits p).2 (hfit p (by simp))
    cases hfault with
    | invalid hinvalid => simp [hcheck] at hinvalid
    | repeated _ hid =>
      exact ⟨earlier.map (·.id), p.id, later.map (·.id), by simp, List.forall_mem_map.2 hunseen,
        hnodup, List.mem_append.1 hid, rfl⟩
  · rintro ⟨before, id, after, hsplit, hunseen, hnodup, hid, rfl⟩
    obtain ⟨earlier, rest, rfl, rfl, hrest⟩ := List.map_eq_append_iff.1 hsplit
    obtain ⟨p, later, rfl, rfl, -⟩ := List.map_eq_cons_iff.1 hrest
    refine ⟨earlier, p, later, rfl, ?_, .repeated ?_ (List.mem_append.2 hid)⟩
    · rw [checkEach_eq_ok_iff]
      exact ⟨fun q hq => hfit q (by simp [hq]), fun q hq => hunseen q.id (List.mem_map_of_mem hq),
        hnodup⟩
    · exact (Projection.check_eq_ok_iff limits p).2 (hfit p (by simp))

/-- A list of projections that are fit makes no catalog when it is too long or an id stands
twice. -/
theorem ofList_eq_error_iff {limits : Limits} {ps : List Projection}
    (hfit : ∀ p ∈ ps, p.Fit limits) (v : Violation) :
    ofList limits ps = .error v ↔
      (maxProjections < ps.length ∧ v = .tooManyProjections ps.length maxProjections) ∨
      (ps.length ≤ maxProjections ∧ ∃ before id after, ps.map (·.id) = before ++ id :: after ∧
        before.Nodup ∧ id ∈ before ∧ v = .duplicateProjectionId id) := by
  have hcheck := checkEach_eq_error_iff hfit [] v
  simp only [List.not_mem_nil, not_false_eq_true, implies_true, true_and, or_false] at hcheck
  rw [← hcheck, ofList]
  by_cases hlong : maxProjections < ps.length
  · simp [hlong, Nat.not_le.2 hlong, eq_comm]
  · rw [if_neg hlong, and_iff_right (Nat.not_lt.1 hlong)]
    cases checkEach limits [] ps with
    | error e => simp [hlong]
    | ok _ => simp [hlong]

/-- A projection is found under its own id and no other. -/
theorem get?_eq_some_iff {ps : List Projection} (hnodup : (ps.map (·.id)).Nodup) {id : String}
    {p : Projection} : get? ⟨ps⟩ id = some p ↔ p ∈ ps ∧ p.id = id := by
  constructor
  · intro h
    exact ⟨List.mem_of_find?_eq_some h, by simpa using List.find?_some h⟩
  · rintro ⟨hp, rfl⟩
    cases hget : get? ⟨ps⟩ p.id with
    | none => simpa using List.find?_eq_none.1 hget p hp
    | some q =>
      have hq : q.id = p.id := by simpa using List.find?_some hget
      rw [List.inj_on_of_nodup_map hnodup (List.mem_of_find?_eq_some hget) hp hq]

/-- Every projection of a catalog is found under its id. -/
theorem get?_of_mem {limits : Limits} {projections : List Projection} {c : Catalog}
    (h : ofList limits projections = .ok c) {p : Projection} (hp : p ∈ c.projections) :
    c.get? p.id = some p := by
  obtain ⟨rfl, -, -, hnodup⟩ := (ofList_eq_ok_iff limits projections c).1 h
  exact (get?_eq_some_iff hnodup).2 ⟨hp, rfl⟩

/-- Both sides of every projection of a catalog are admissible under the limits it was made with. -/
theorem admissible_of_ofList {limits : Limits} {projections : List Projection} {c : Catalog}
    (h : ofList limits projections = .ok c) {p : Projection} (hp : p ∈ c.projections) :
    p.pattern.Admissible limits ∧ p.body.Admissible limits := by
  obtain ⟨rfl, -, hfit, -⟩ := (ofList_eq_ok_iff limits projections c).1 h
  exact ⟨(hfit p hp).pattern, (hfit p hp).body⟩

end Catalog

end TreeReduction
