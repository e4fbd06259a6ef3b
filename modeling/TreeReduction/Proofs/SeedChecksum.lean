import TreeReduction.Proofs.CanonicalText
import TreeReduction.Proofs.Hexadecimal
import TreeReduction.Proofs.Loading

set_option autoImplicit false

/-!
# What the checksum of a seed binds

The checksum is the digest of one value that holds the whole description and all projections
(`Seed.content`), in hexadecimal. No step on the way loses anything: hexadecimal text determines the
digest (`Digest.hex_inj`), the canonical text of a value without floating-point numbers determines
the value, and the value determines what it was made of (`Seed.content_inj`).

So seeds with one checksum are one seed, or two canonical texts have one digest
(`Seed.checksumOf_eq_iff`).
-/

namespace TreeReduction

/-! ## Projections and descriptions as values -/

theorem Value.floatFree_str (s : String) : (Value.str s).FloatFree :=
  (Value.floatFree_scalar_iff rfl).2 (by simp)

namespace Projection

/-- Neither side of a projection holds a floating-point number. -/
def FloatFree (p : Projection) : Prop :=
  p.pattern.FloatFree ∧ p.body.FloatFree

theorem floatFree_toValue {p : Projection} (h : p.FloatFree) : p.toValue.FloatFree := by
  simp only [toValue, Value.floatFree_map_iff, List.forall_mem_cons]
  exact ⟨h.2, Value.floatFree_str p.id, h.1, by simp⟩

theorem toValue_inj {p q : Projection} (h : p.toValue = q.toValue) : p = q := by
  cases p
  cases q
  simp_all [toValue]

end Projection

namespace Seed

namespace Meta

theorem floatFree_toValue (m : Meta) : m.toValue.FloatFree := by
  have hids : (Value.list (m.expectedIds.map .str)).FloatFree := by
    rw [Value.floatFree_list_iff, List.forall_mem_map]
    exact fun id _ => Value.floatFree_str id
  unfold toValue
  cases m.fallback <;> simp [Value.floatFree_map_iff, Value.floatFree_str, hids]

theorem expectedIds_inj {ids others : List String}
    (h : ids.map Value.str = others.map Value.str) : ids = others :=
  (List.map_inj_right fun _ _ => Value.str.inj).1 h

/-- A fallback that is named takes an entry of its own, so no text under it can stand for a
description without one. -/
theorem toValue_inj {m n : Meta} (h : m.toValue = n.toValue) : m = n := by
  obtain ⟨schema, name, version, description, ids, fallback⟩ := m
  obtain ⟨schema', name', version', description', ids', fallback'⟩ := n
  simp only [toValue] at h
  cases fallback with
  | none =>
    cases fallback' with
    | none =>
      simp only [Value.map.injEq, List.cons.injEq, Prod.mk.injEq, Value.str.injEq,
        Value.list.injEq, true_and, and_true] at h
      obtain ⟨rfl, hids, rfl, rfl, rfl⟩ := h
      rw [expectedIds_inj hids]
    | some id => simp at h
  | some id =>
    cases fallback' with
    | none => simp at h
    | some id' =>
      simp only [Value.map.injEq, List.cons.injEq, Prod.mk.injEq, Value.str.injEq,
        Value.list.injEq, true_and, and_true] at h
      obtain ⟨rfl, hids, rfl, rfl, rfl, rfl⟩ := h
      rw [expectedIds_inj hids]

end Meta

/-! ## The checksum -/

/-- What the checksum of a seed is taken over: its description and its projections as one value. -/
def content (m : Meta) (ps : List Projection) : Value :=
  .map [("meta", m.toValue), ("projections", .list (ps.map (·.toValue)))]

theorem checksumOf_eq (m : Meta) (ps : List Projection) :
    checksumOf m ps = (content m ps).digest.hex := rfl

theorem floatFree_content {m : Meta} {ps : List Projection} (h : ∀ p ∈ ps, p.FloatFree) :
    (content m ps).FloatFree := by
  have hps : (Value.list (ps.map (·.toValue))).FloatFree := by
    rw [Value.floatFree_list_iff, List.forall_mem_map]
    exact fun p hp => Projection.floatFree_toValue (h p hp)
  simp [content, Value.floatFree_map_iff, m.floatFree_toValue, hps]

theorem content_inj {m n : Meta} {ps qs : List Projection} (h : content m ps = content n qs) :
    m = n ∧ ps = qs := by
  simp only [content, Value.map.injEq, List.cons.injEq, Prod.mk.injEq, Value.list.injEq, true_and,
    and_true] at h
  exact ⟨Meta.toValue_inj h.1, (List.map_inj_right fun _ _ => Projection.toValue_inj).1 h.2⟩

/-- The checksums of two seeds are equal exactly when the seeds are or their texts collide. -/
theorem checksumOf_eq_iff {m n : Meta} {ps qs : List Projection} (hps : ∀ p ∈ ps, p.FloatFree)
    (hqs : ∀ q ∈ qs, q.FloatFree) :
    checksumOf m ps = checksumOf n qs ↔
      (m = n ∧ ps = qs) ∨
        Digest.Collide (content m ps).canonical (content n qs).canonical := by
  have hhex : checksumOf m ps = checksumOf n qs ↔
      (content m ps).digest = (content n qs).digest := by
    rw [checksumOf_eq, checksumOf_eq]
    exact ⟨Digest.hex_inj, fun h => by rw [h]⟩
  have hcontent : content m ps = content n qs ↔ m = n ∧ ps = qs :=
    ⟨content_inj, fun ⟨hm, hps⟩ => by rw [hm, hps]⟩
  rw [hhex, Value.digest_eq_iff (floatFree_content hps) (floatFree_content hqs), hcontent]

namespace Loader

/-- Under limits without floating-point numbers, a loader reads no projection that holds one. -/
theorem Reads.floatFree {l : Loader} {source : String} {d : Document} {ps : List Projection}
    (h : l.Reads source d ps) (hfloats : l.limits.allowFloats = false) : ∀ p ∈ ps, p.FloatFree := by
  intro p hp
  have hfit := fit_of_makes h.makes p hp
  have hside : ∀ {v : Value}, v.Admissible l.limits → v.FloatFree := by
    intro v hv
    simpa [hfloats] using hv.floats.2
  exact ⟨hside hfit.pattern, hside hfit.body⟩

/-- The checksum binds the whole seed. Without floating-point numbers, a description and projections
have the checksum of others only if they are the same, in every field and in order, or else two
different canonical texts have one digest. So two texts that loaders without floating-point numbers
accept with one checksum make one seed, up to such a collision. -/
theorem checksumOf_binds :
    (∀ (m n : Meta) (ps qs : List Projection),
      (∀ p ∈ ps, p.FloatFree) → (∀ q ∈ qs, q.FloatFree) →
        (checksumOf m ps = checksumOf n qs ↔
          (m = n ∧ ps = qs) ∨
            Digest.Collide (content m ps).canonical (content n qs).canonical)) ∧
    ∀ (l l' : Loader) (source source' : String) (s s' : Seed),
      l.limits.allowFloats = false → l'.limits.allowFloats = false →
      l.load source = .ok s → l'.load source' = .ok s' → s.checksum = s'.checksum →
        ∃ d d', l.Reads source d s.catalog.projections ∧
          l'.Reads source' d' s'.catalog.projections ∧
          ((d.info = d'.info ∧ s = s') ∨
            Digest.Collide (content d.info s.catalog.projections).canonical
              (content d'.info s'.catalog.projections).canonical) := by
  refine ⟨fun m n ps qs hps hqs => checksumOf_eq_iff hps hqs, ?_⟩
  intro l l' source source' s s' hfloats hfloats' hload hload' hsame
  obtain ⟨d, ps, hreads, -, rfl⟩ := exists_reads_of_load hload
  obtain ⟨d', ps', hreads', -, rfl⟩ := exists_reads_of_load hload'
  refine ⟨d, d', hreads, hreads', ?_⟩
  rcases (checksumOf_eq_iff (hreads.floatFree hfloats) (hreads'.floatFree hfloats')).1 hsame with
    ⟨hinfo, rfl⟩ | hcollide
  · exact .inl ⟨hinfo, by rw [seedOf, seedOf, hinfo]⟩
  · exact .inr hcollide

/-- A description with a fallback and one without, and a seed laid out in two ways. -/
theorem checksumOf_binds_layouts :
    let ps : List Projection := [⟨"a", .site "x", .list []⟩]
    let array := "[[\"mured.seed/v1\",\"n\",\"1\",\"\",[]],[[\"a\",1,[]]],
      \"6da91cb39acc7e9a2e28ccda16fccbc85d33fa5d109b002e13f4d7476f2bc294\"]"
    let object := "[[\"mured.seed/v1\",\"n\",\"1\",\"\",[]],
      [\x7b\"body\":[ ],\"id\":\"a\",\"pattern\":1\x7d],
      \"6DA91CB39ACC7E9A2E28CCDA16FCCBC85D33FA5D109B002E13F4D7476F2BC294\"]"
    (checksumOf { name := "n" } ps = checksumOf { name := "n", fallback := some "" } ps →
      Digest.Collide (content { name := "n" } ps).canonical
        (content { name := "n", fallback := some "" } ps).canonical) ∧
    ∃ s s', ({} : Loader).load array = .ok s ∧ ({} : Loader).load object = .ok s' ∧
      s.checksum = s'.checksum ∧
      (s = s' ∨ ∃ m m', Digest.Collide (content m s.catalog.projections).canonical
        (content m' s'.catalog.projections).canonical) := by
  intro ps array object
  have hps : ∀ p ∈ ps, p.FloatFree := by
    simp only [ps, List.forall_mem_singleton]
    exact ⟨by decide, by decide⟩
  have hloaded : ∀ source, (({} : Loader).load source).toOption.map (·.checksum) =
      some "6da91cb39acc7e9a2e28ccda16fccbc85d33fa5d109b002e13f4d7476f2bc294" →
        ∃ s, ({} : Loader).load source = .ok s ∧
          s.checksum = "6da91cb39acc7e9a2e28ccda16fccbc85d33fa5d109b002e13f4d7476f2bc294" := by
    intro source h
    cases hsource : ({} : Loader).load source with
    | error fault => simp [hsource, Except.toOption] at h
    | ok s => exact ⟨s, rfl, by simpa [hsource, Except.toOption] using h⟩
  obtain ⟨s, harray, hs⟩ := hloaded array (by decide +kernel)
  obtain ⟨s', hobject, hs'⟩ := hloaded object (by decide +kernel)
  obtain ⟨hfields, hloads⟩ := checksumOf_binds
  refine ⟨fun h => ((hfields _ _ ps ps hps hps).1 h).resolve_left (by simp), s, s', harray, hobject,
    hs.trans hs'.symm, ?_⟩
  obtain ⟨d, d', -, -, ⟨-, hsame⟩ | hcollide⟩ :=
    hloads {} {} array object s s' rfl rfl harray hobject (hs.trans hs'.symm)
  · exact .inl hsame
  · exact .inr ⟨_, _, hcollide⟩

end Loader

end Seed

end TreeReduction
