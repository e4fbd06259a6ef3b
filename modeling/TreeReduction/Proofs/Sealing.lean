import TreeReduction.Proofs.Loading
import TreeReduction.Proofs.RoundTrip
import TreeReduction.Proofs.SeedDocuments
import TreeReduction.Proofs.SpreadText

set_option autoImplicit false

/-!
# Sealing seeds

A sealed seed is read as the document that was sealed, with nothing but its checksum changed, and
makes the same projections (`Seed.Loader.Reads.sealed`). So sealing it again changes nothing, and
when it is loaded all checks pass that do not depend on what the loader asks for beyond the seed
itself (`Seed.Loader.sealed_stable`).

Floating-point numbers must be forbidden: the text of one is not known to be read as the same
number. All other documents that can stand in a seed are written exactly.
-/

namespace TreeReduction.Seed

/-- A document that declares the checksum of its description and projections. -/
def Document.signed (d : Document) (ps : List Projection) : Document :=
  { d with checksum := some (checksumOf d.info ps) }

/-! ## What a sealed seed is read as -/

/-- A side of an entry that was read under limits without floating-point numbers is written so that
it is read exactly. -/
theorem readable_of_ofJson {limits : Limits} (hfloats : limits.allowFloats = false) {json : Json}
    (hjson : json.Settled) {v : Value} (h : Value.ofJson limits json = .ok v)
    (hv : v.Admissible limits) : json.Readable := by
  have hdocument : v.toJson = json := by
    rw [(Value.ofSettled_eq_ok_iff.1 h).1, hjson]
  have hfree : v.FloatFree := by
    simpa [hfloats] using hv.floats.2
  exact hdocument ▸ Value.readable_toJson hfree

namespace Loader

variable {l : Loader} {source : String} {d : Document} {ps : List Projection}

/-- The seed as it is sealed is read back, with its checksum. -/
theorem Reads.sealed (hfloats : l.limits.allowFloats = false) (h : l.Reads source d ps) :
    l.Reads (d.signed ps).toJson.pretty (d.signed ps) ps := by
  obtain ⟨json, hparse, hdecode⟩ := h.spells
  have hbelow := below_of_decode (Json.settled_settled json) hdecode
  -- the text that was read kept the bound, and the levels above the entries stay the same
  have hnesting : json.settled.depth ≤ Json.maxNesting :=
    (Json.depth_settled_le json).trans (Json.depth_le_of_parse? hparse)
  have hdepth : (d.signed ps).toJson.depth ≤ Json.maxNesting := by
    refine Document.depth_toJson_le (n := Json.maxNesting - 3) fun e he => ?_
    obtain ⟨hpattern, hbody⟩ := hbelow e he
    exact ⟨Nat.le_sub_of_add_le (hpattern.depth_le.trans hnesting),
      Nat.le_sub_of_add_le (hbody.depth_le.trans hnesting)⟩
  have hreadable : (d.signed ps).toJson.Readable := by
    refine Document.readable_toJson fun e he => ?_
    obtain ⟨hpattern, hbody⟩ := hbelow e he
    obtain ⟨p, hp, hmakes⟩ := Value.exists_left_of_mem h.makes.flip he
    exact ⟨readable_of_ofJson hfloats hpattern.settled hmakes.pattern hmakes.fit.pattern,
      readable_of_ofJson hfloats hbody.settled hmakes.body hmakes.fit.body⟩
  have hspells : Spells (d.signed ps).toJson.pretty (d.signed ps) :=
    ⟨_, Json.parse?_pretty hreadable hdepth, Document.decode_toJson fun e he =>
      ⟨(hbelow e he).1.settled, (hbelow e he).2.settled⟩⟩
  exact ⟨hspells, h.mark, h.makes, h.count_le, h.distinct⟩

/-- Sealing asks for no more than reading does. -/
theorem sealed_eq_ok_iff (l : Loader) (source text : String) :
    l.sealed source = .ok text ↔
      ∃ d ps, l.Reads source d ps ∧ (d.signed ps).toJson.pretty = text := by
  have hsealed : ∀ {d : Document} {ps : List Projection}, l.Reads source d ps →
      l.sealed source = .ok (d.signed ps).toJson.pretty := by
    intro d ps hreads
    rw [Loader.sealed, hreads.draft_eq]
    rfl
  constructor
  · intro h
    rcases reads_or_cannotRead l source with ⟨d, ps, hreads⟩ | ⟨fault, hcannot⟩
    · exact ⟨d, ps, hreads, Except.ok.inj ((hsealed hreads).symm.trans h)⟩
    · simp [Loader.sealed, hcannot.draft_eq, Except.map] at h
  · rintro ⟨d, ps, hreads, rfl⟩
    exact hsealed hreads

/-! ## Loading a sealed seed -/

theorem declares_of_checksum_eq (h : d.checksum = some (checksumOf d.info ps)) : Declares d ps :=
  ⟨_, h, by simp [sameIgnoringCase]⟩

/-- Of a document that declares its own checksum, the loader asks for what it pins, what has to be
present and where the fallback stands. -/
theorem trusts_iff_of_declares (h : Declares d ps) :
    l.Trusts d ps ↔ l.PinAgrees d ps ∧ (∀ id, l.Wants d id → id ∈ d.ids) ∧
      ∀ id, d.info.IsFallback id → d.ids.getLast? = some id :=
  ⟨fun ⟨_, hpin, hpresent, hlast⟩ => ⟨hpin, hpresent, hlast⟩,
    fun ⟨hpin, hpresent, hlast⟩ => ⟨h, hpin, hpresent, hlast⟩⟩

/-- A document that declares its own checksum is only rejected for one of these three. -/
theorem rejects_iff_of_declares (h : Declares d ps) (fault : Fault) :
    l.Rejects d ps fault ↔
      (∃ pin, l.pinned = some pin ∧ sameIgnoringCase pin (checksumOf d.info ps) = false ∧
        fault = .checksumMismatch pin (checksumOf d.info ps)) ∨
      (l.PinAgrees d ps ∧ ∃ ids, ids ≠ [] ∧ ids.Pairwise (· < ·) ∧
        (∀ id, id ∈ ids ↔ l.Wants d id ∧ id ∉ d.ids) ∧ fault = .missingProjections ids) ∨
      (l.PinAgrees d ps ∧ (∀ id, l.Wants d id → id ∈ d.ids) ∧ ∃ name last,
        d.info.IsFallback name ∧ d.ids.getLast? = some last ∧ last ≠ name ∧
          fault = .fallbackNotLast name last) := by
  constructor
  · intro hrejects
    obtain ⟨declared, hdeclared, hsame⟩ := h
    cases hrejects with
    | undeclared hnone => simp [hdeclared] at hnone
    | declared hother hno =>
      obtain rfl := Option.some.inj (hdeclared.symm.trans hother)
      simp [hsame] at hno
    | pinned _ hpin hno => exact .inl ⟨_, hpin, hno, rfl⟩
    | missing _ hpin hne hascending hids => exact .inr (.inl ⟨hpin, _, hne, hascending, hids, rfl⟩)
    | misplaced _ hpin hpresent hname hlast hne =>
      exact .inr (.inr ⟨hpin, hpresent, _, _, hname, hlast, hne, rfl⟩)
  · rintro (⟨pin, hpin, hno, rfl⟩ | ⟨hpin, ids, hne, hascending, hids, rfl⟩ |
      ⟨hpin, hpresent, name, last, hname, hlast, hne, rfl⟩)
    · exact .pinned h hpin hno
    · exact .missing h hpin hne hascending hids
    · exact .misplaced h hpin hpresent hname hlast hne

/-- Without floating-point numbers, a sealed seed is stable and can be loaded. Sealing it again
gives the same text. It is the document that was sealed with its checksum, and loading it makes a
seed unless the loader pins another checksum, an id is missing or the fallback does not come last;
no other fault is possible. -/
theorem sealed_stable {text : String} (hfloats : l.limits.allowFloats = false)
    (h : l.sealed source = .ok text) :
    l.sealed text = .ok text ∧
    ∃ d ps, l.Reads source d ps ∧ l.Reads text (d.signed ps) ps ∧
      ((∃ s, l.load text = .ok s) ↔
        l.PinAgrees d ps ∧ (∀ id, l.Wants d id → id ∈ d.ids) ∧
          ∀ id, d.info.IsFallback id → d.ids.getLast? = some id) ∧
      ∀ fault, l.load text = .error fault ↔
        (∃ pin, l.pinned = some pin ∧ sameIgnoringCase pin (checksumOf d.info ps) = false ∧
          fault = .checksumMismatch pin (checksumOf d.info ps)) ∨
        (l.PinAgrees d ps ∧ ∃ ids, ids ≠ [] ∧ ids.Pairwise (· < ·) ∧
          (∀ id, id ∈ ids ↔ l.Wants d id ∧ id ∉ d.ids) ∧ fault = .missingProjections ids) ∨
        (l.PinAgrees d ps ∧ (∀ id, l.Wants d id → id ∈ d.ids) ∧ ∃ name last,
          d.info.IsFallback name ∧ d.ids.getLast? = some last ∧ last ≠ name ∧
            fault = .fallbackNotLast name last) := by
  obtain ⟨d, ps, hreads, rfl⟩ := (sealed_eq_ok_iff l source text).1 h
  have hagain := hreads.sealed hfloats
  have hdeclares : Declares (d.signed ps) ps := declares_of_checksum_eq rfl
  refine ⟨(sealed_eq_ok_iff l _ _).2 ⟨_, _, hagain, rfl⟩, d, ps, hreads, hagain, ?_, ?_⟩
  · have htrusts := trusts_iff_of_declares (l := l) hdeclares
    constructor
    · rintro ⟨s, hs⟩
      exact htrusts.1 ((hagain.load_eq_ok_iff s).1 hs).1
    · intro hasked
      exact ⟨_, (hagain.load_eq_ok_iff _).2 ⟨htrusts.2 hasked, rfl⟩⟩
  · intro fault
    rw [hagain.load_eq_error_iff]
    exact rejects_iff_of_declares hdeclares fault

/-- A seed written as arrays, with a stale checksum, an escape and members out of order. -/
theorem sealed_stable_arrays :
    let l : Loader := {}
    let source := "[[\"mured.seed/v1\",\"n\",\"1\",\"\",[\"a.wrap\"]],
      [[\"a.wrap\",\x7b\"y\":\"\\u00e9\",\"x\":-7\x7d,null]],\"stale\"]"
    l.limits.allowFloats = false ∧
      ∃ text, l.sealed source = .ok text ∧ l.sealed text = .ok text ∧
        ∃ s, l.load text = .ok s := by
  intro l source
  have hfloats : l.limits.allowFloats = false := rfl
  have hok : (l.sealed source).isOk = true := by decide +kernel
  have hids : (Document.parse source).toOption.map
      (fun d => (d.ids, d.info.expectedIds, d.info.fallbackId?)) =
        some (["a.wrap"], ["a.wrap"], some "a.wrap") := by decide +kernel
  cases htext : l.sealed source with
  | error fault => simp [htext, Except.isOk, Except.toBool] at hok
  | ok text =>
    obtain ⟨hagain, d, ps, hreads, -, hload, -⟩ := sealed_stable hfloats htext
    have hparse := (Document.parse_eq_ok_iff source d).2 ⟨hreads.spells, hreads.mark⟩
    simp only [hparse, Except.toOption, Option.map_some, Option.some.injEq, Prod.mk.injEq] at hids
    obtain ⟨hids, hexpected, hfallback⟩ := hids
    have hnamed : ∀ id, d.info.IsFallback id → id = "a.wrap" := by
      intro id hid
      rw [← Meta.fallbackId?_eq_some_iff, hfallback] at hid
      exact (Option.some.inj hid).symm
    refine ⟨hfloats, text, rfl, hagain, hload.2 ⟨?_, ?_, ?_⟩⟩
    · intro pin hpin
      simp [l] at hpin
    · rintro id (hid | hid | hid)
      · rwa [hids, ← hexpected]
      · simp [l] at hid
      · simp [hids, hnamed id hid]
    · intro id hid
      simp [hids, hnamed id hid]

end Loader

end TreeReduction.Seed
