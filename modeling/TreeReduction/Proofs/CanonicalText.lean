import TreeReduction.Proofs.Parts
import TreeReduction.Proofs.Steps
import TreeReduction.Proofs.WrittenJson
import TreeReduction.Value.Document

set_option autoImplicit false

/-!
# Canonical text identifies a value

The canonical text of a value is the text of its document without blanks
(`Value.canonical_eq_compact`), and a text without floating-point numbers is written for one
document only. So values without them that have one canonical text are one value, and values that
count as equal are, or else two texts have one digest.

A step that tests for a fixed point compares digests as well, so the same holds of it.
-/

namespace TreeReduction

/-- Two different texts with one digest. -/
def Digest.Collide (s t : String) : Prop :=
  s ≠ t ∧ ofText s = ofText t

namespace Value

/-! ## The document of a value -/

theorem toJsonItems_eq (items : List Value) : toJsonItems items = items.map toJson := by
  induction items with
  | nil => rfl
  | cons x rest ih => rw [toJsonItems, ih, List.map_cons]

theorem toJsonMembers_eq (entries : List (String × Value)) :
    toJsonMembers entries = Entries.mapValues toJson entries := by
  induction entries with
  | nil => rfl
  | cons p rest ih => rw [toJsonMembers, ih, Entries.mapValues_cons]

theorem writeItems_eq {items : List Value}
    (h : ∀ x ∈ items, ∀ out, write out x = Json.write out x.toJson) (out : String) (first : Bool) :
    writeItems out first items = Json.writeItems out first (toJsonItems items) := by
  induction items generalizing out first with
  | nil => rfl
  | cons x rest ih =>
    rw [List.forall_mem_cons] at h
    rw [writeItems, ih h.2, h.1, toJsonItems, Json.writeItems]

theorem writeEntries_eq {entries : List (String × Value)}
    (h : ∀ p ∈ entries, ∀ out, write out p.2 = Json.write out p.2.toJson) (out : String)
    (first : Bool) :
    writeEntries out first entries = Json.writeMembers out first (toJsonMembers entries) := by
  induction entries generalizing out first with
  | nil => rfl
  | cons p rest ih =>
    rw [List.forall_mem_cons] at h
    rw [writeEntries, ih h.2, h.1, toJsonMembers, Json.writeMembers]

/-- A value with finite numbers is written like its document. -/
theorem write_eq {v : Value} (h : v.FiniteFloats) (out : String) :
    write out v = Json.write out v.toJson := by
  induction v using induct generalizing out with
  | scalar v hv =>
    cases v with
    | float x =>
      have hx : x.isFinite = true := (finiteFloats_scalar_iff rfl).1 h x rfl
      rw [write, toJson, if_pos hx, Json.write, Json.Number.text]
    | list items => simp [isScalar] at hv
    | map entries => simp [isScalar] at hv
    | _ => rfl
  | list items ih =>
    rw [finiteFloats_list_iff] at h
    rw [write, writeItems_eq fun x hx => ih x hx (h x hx), toJson, Json.write]
  | map entries ih =>
    rw [finiteFloats_map_iff] at h
    rw [write, writeEntries_eq fun p hp => ih p hp (h p hp), toJson, Json.write]

theorem canonical_eq_compact {v : Value} (h : v.FiniteFloats) :
    v.canonical = Json.compact v.toJson :=
  write_eq h ""

/-- The integers of a value are read exactly. -/
theorem readable_toJson {v : Value} (h : v.FloatFree) : v.toJson.Readable := by
  induction v using induct with
  | scalar v hv =>
    cases v with
    | int n =>
      have hmin := n.le_toInt
      have hmax := n.toInt_lt
      have hfits : (Json.Number.integer n.toInt).Fits := by
        constructor <;> omega
      exact (Json.readable_number_iff _).2 hfits
    | float x => exact absurd rfl (h.self x)
    | list items => simp [isScalar] at hv
    | map entries => simp [isScalar] at hv
    | _ => simp [toJson, Json.Readable, Json.tokens, Json.Token.Readable]
  | list items ih =>
    rw [floatFree_list_iff] at h
    rw [toJson, toJsonItems_eq, Json.readable_array_iff, List.forall_mem_map]
    exact fun x hx => ih x hx (h x hx)
  | map entries ih =>
    rw [floatFree_map_iff] at h
    rw [toJson, toJsonMembers_eq, Json.readable_object_iff]
    intro m hm
    obtain ⟨p, hp, rfl⟩ := Entries.mem_mapValues_iff.1 hm
    exact ih p hp (h p hp)

/-! ## The document determines the value -/

theorem eq_of_map_eq {α β : Type} {f : α → β} {xs ys : List α}
    (h : ∀ x ∈ xs, ∀ y ∈ ys, f x = f y → x = y) (heq : xs.map f = ys.map f) : xs = ys := by
  induction xs generalizing ys with
  | nil => exact (List.map_eq_nil_iff.1 heq.symm).symm
  | cons x xs ih =>
    cases ys with
    | nil => simp at heq
    | cons y ys =>
      rw [List.map_cons, List.map_cons, List.cons.injEq] at heq
      have hhead : x = y := h x (by simp) y (by simp) heq.1
      have htail : xs = ys :=
        ih (fun x' hx y' hy => h x' (by simp [hx]) y' (by simp [hy])) heq.2
      rw [hhead, htail]

/-- The document of a scalar is the document of no other value with finite numbers. -/
theorem toJson_inj_of_isScalar {u v : Value} (hu : u.isScalar = true) (huf : u.FiniteFloats)
    (hvf : v.FiniteFloats) (h : u.toJson = v.toJson) : u = v := by
  have hufinite := huf.self
  have hvfinite := hvf.self
  cases u <;> cases v <;> simp_all [toJson, isScalar, Int64.toInt_inj]

/-- Values with finite numbers that have one document are one value. -/
theorem toJson_inj {u v : Value} (hu : u.FiniteFloats) (hv : v.FiniteFloats)
    (h : u.toJson = v.toJson) : u = v := by
  induction u using induct generalizing v with
  | scalar u hscalar => exact toJson_inj_of_isScalar hscalar hu hv h
  | list us ih =>
    cases v with
    | list vs =>
      rw [finiteFloats_list_iff] at hu hv
      rw [toJson, toJson, Json.array.injEq, toJsonItems_eq, toJsonItems_eq] at h
      rw [eq_of_map_eq (fun x hx y hy => ih x hx (hu x hx) (hv y hy)) h]
    | map vs => simp [toJson] at h
    | _ => exact (toJson_inj_of_isScalar rfl hv hu h.symm).symm
  | map us ih =>
    cases v with
    | map vs =>
      rw [finiteFloats_map_iff] at hu hv
      rw [toJson, toJson, Json.object.injEq, toJsonMembers_eq, toJsonMembers_eq] at h
      have hsame : ∀ p ∈ us, ∀ q ∈ vs, (p.1, p.2.toJson) = (q.1, q.2.toJson) → p = q := by
        intro p hp q hq hpq
        rw [Prod.mk.injEq] at hpq
        exact Prod.ext hpq.1 (ih p hp (hu p hp) (hv q hq) hpq.2)
      rw [eq_of_map_eq hsame h]
    | list vs => simp [toJson] at h
    | _ => exact (toJson_inj_of_isScalar rfl hv hu h.symm).symm

/-! ## Canonical texts -/

/-- Values without floating-point numbers that have one canonical text are one value. -/
theorem canonical_inj {u v : Value} (hu : u.FloatFree) (hv : v.FloatFree)
    (h : u.canonical = v.canonical) : u = v := by
  rw [canonical_eq_compact hu.finiteFloats, canonical_eq_compact hv.finiteFloats] at h
  have hjson := Json.compact_inj (readable_toJson hu) (readable_toJson hv) h
  exact toJson_inj hu.finiteFloats hv.finiteFloats hjson

/-- One digest means one value, or two texts that collide. -/
theorem digest_eq_iff {u v : Value} (hu : u.FloatFree) (hv : v.FloatFree) :
    u.digest = v.digest ↔ u = v ∨ Digest.Collide u.canonical v.canonical := by
  constructor
  · intro h
    by_cases htext : u.canonical = v.canonical
    · exact .inl (canonical_inj hu hv htext)
    · exact .inr ⟨htext, h⟩
  · rintro (rfl | ⟨-, hdigest⟩)
    · rfl
    · exact hdigest

/-- The canonical text of values without floating-point numbers is injective. Up to a collision of
two texts, such values are therefore equal exactly when they are one value, and a step from one of
them stalls in a fixed point exactly when the projection that fires made it again, where it would
otherwise rewrite. -/
theorem canonical_eq_iff {u v : Value} (hu : u.FloatFree) (hv : v.FloatFree) :
    (u.canonical = v.canonical ↔ u = v) ∧
    ((u == v) = true ↔ u = v ∨ Digest.Collide u.canonical v.canonical) ∧
    ∀ (k : Kernel) (p : Projection) (bindings : Bindings), k.FirstMatch v p bindings →
      p.body.instantiate bindings = .ok u → u.overrun? k.limits = none →
        (k.apply v v.digest = .stalled (.fixedPoint p.id) ↔
          u = v ∨ Digest.Collide u.canonical v.canonical) ∧
        (k.apply v v.digest = .reduced p.id u u.digest ↔
          ¬(u = v ∨ Digest.Collide u.canonical v.canonical)) := by
  refine ⟨⟨canonical_inj hu hv, fun h => by rw [h]⟩, ?_, ?_⟩
  · have hbeq : (u == v) = (u.digest == v.digest) := rfl
    rw [← digest_eq_iff hu hv, hbeq]
    exact beq_iff_eq
  · intro k p bindings hfirst hbody hover
    rw [← digest_eq_iff hu hv, Kernel.apply_of_firstMatch hfirst,
      Kernel.commit_of_instantiate hbody hover]
    split
    · rename_i hsame
      simp [hsame]
    · rename_i hother
      simp [hother]

/-- A comma in a text and a comma between texts, and a projection that changes nothing. -/
theorem canonical_eq_iff_comma :
    let u : Value := .list [.str "a,b"]
    let v : Value := .list [.str "a", .str "b"]
    let k : Kernel := ⟨⟨[⟨"same", site "x", site "x"⟩]⟩, {}⟩
    u.canonical ≠ v.canonical ∧
      ((u == v) = true → Digest.Collide u.canonical v.canonical) ∧
      k.apply v v.digest = .stalled (.fixedPoint "same") := by
  intro u v k
  have hu : u.FloatFree := by decide
  have hv : v.FloatFree := by decide
  have hne : u ≠ v := by simp [u, v]
  have hfirst : k.FirstMatch v ⟨"same", site "x", site "x"⟩ [("x", v)] :=
    ⟨[], [], rfl, by simp, rfl⟩
  obtain ⟨htext, hequal, -⟩ := canonical_eq_iff hu hv
  obtain ⟨-, -, hstep⟩ := canonical_eq_iff hv hv
  refine ⟨fun h => hne (htext.1 h), fun h => (hequal.1 h).resolve_left hne, ?_⟩
  exact (hstep k _ _ hfirst rfl (by decide)).1.2 (.inl rfl)

end Value

end TreeReduction
