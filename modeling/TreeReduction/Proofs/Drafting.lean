import Mathlib.Data.List.Forall2
import TreeReduction.Proofs.Admission
import TreeReduction.Seed.Loader

set_option autoImplicit false

/-!
# Reading seeds without a checksum

What a loader takes for a seed before it looks at any checksum, said without the loader: the text is
that of a document of the right format, every entry makes a projection, and there are not too many
of them and no two with one id (`Seed.Loader.Reads`). Sealing asks for no more than that.

`Seed.Loader.CannotRead` has the faults. Each of its constructors has the conditions of the checks
before its own, so there is one fault at most, that of the first check that fails, and there is one
unless the text can be read (`Seed.Loader.reads_or_cannotRead`).
-/

namespace TreeReduction

namespace Seed

/-! ## Entries -/

namespace Entry

/-- An entry makes a projection: its documents are read as the two sides, and the projection is fit
to be used. -/
structure Makes (limits : Limits) (e : Entry) (p : Projection) : Prop where
  id_eq : p.id = e.id
  pattern : Value.ofJson limits e.pattern = .ok p.pattern
  body : Value.ofJson limits e.body = .ok p.body
  fit : p.Fit limits

/-- Why an entry makes no projection: the first of its pattern, its body and the projection that is
refused. -/
inductive Fails (limits : Limits) (e : Entry) : Violation → Prop where
  | pattern {v : Violation} (h : Value.ofJson limits e.pattern = .error v) : Fails limits e v
  | body {pattern : Value} {v : Violation} (hpattern : Value.ofJson limits e.pattern = .ok pattern)
      (h : Value.ofJson limits e.body = .error v) : Fails limits e v
  | check {pattern body : Value} {v : Violation}
      (hpattern : Value.ofJson limits e.pattern = .ok pattern)
      (hbody : Value.ofJson limits e.body = .ok body)
      (h : (⟨e.id, pattern, body⟩ : Projection).check limits = .error v) : Fails limits e v

theorem projection_eq_ok_iff (limits : Limits) (e : Entry) (p : Projection) :
    e.projection limits = .ok p ↔ e.Makes limits p := by
  constructor
  · intro h
    unfold projection at h
    split at h
    · simp at h
    · rename_i pattern hpattern
      split at h
      · simp at h
      · rename_i body hbody
        obtain ⟨_, hcheck, rfl⟩ := map_eq_ok_iff.1 h
        exact ⟨rfl, hpattern, hbody, (Projection.check_eq_ok_iff limits _).1 hcheck⟩
  · rintro ⟨hid, hpattern, hbody, hfit⟩
    have hp : (⟨e.id, p.pattern, p.body⟩ : Projection) = p := by rw [← hid]
    have hcheck := (Projection.check_eq_ok_iff limits p).2 hfit
    simp [projection, hpattern, hbody, hp, hcheck, Except.map]

theorem projection_eq_error_iff (limits : Limits) (e : Entry) (v : Violation) :
    e.projection limits = .error v ↔ e.Fails limits v := by
  constructor
  · intro h
    unfold projection at h
    split at h
    · rename_i hpattern
      exact .pattern (by simpa [hpattern] using h)
    · rename_i pattern hpattern
      split at h
      · rename_i hbody
        exact .body hpattern (by simpa [hbody] using h)
      · rename_i body hbody
        cases hcheck : (⟨e.id, pattern, body⟩ : Projection).check limits with
        | error w => exact .check hpattern hbody (by simpa [hcheck, Except.map] using h)
        | ok _ => simp [hcheck, Except.map] at h
  · rintro (hpattern | ⟨hpattern, hbody⟩ | ⟨hpattern, hbody, hcheck⟩)
    · simp [projection, hpattern]
    · simp [projection, hpattern, hbody]
    · simp [projection, hpattern, hbody, hcheck, Except.map]

end Entry

theorem projectionsOf_eq_ok_iff (limits : Limits) (entries : List Entry) (ps : List Projection) :
    projectionsOf limits entries = .ok ps ↔ List.Forall₂ (Entry.Makes limits) entries ps := by
  induction entries generalizing ps with
  | nil => simp [projectionsOf, eq_comm]
  | cons e rest ih =>
    rw [projectionsOf]
    cases he : e.projection limits with
    | error v =>
      have hno : ∀ p, ¬e.Makes limits p := fun p hp => by
        simp [(Entry.projection_eq_ok_iff limits e p).2 hp] at he
      simp [List.forall₂_cons_left_iff, hno]
    | ok p =>
      have hmakes : ∀ q, e.Makes limits q ↔ q = p := fun q => by
        rw [← Entry.projection_eq_ok_iff, he, Except.ok.injEq, eq_comm]
      simp only [List.forall₂_cons_left_iff, hmakes, ← ih]
      cases projectionsOf limits rest with
      | error f => simp [Except.map]
      | ok qs => simp [Except.map, eq_comm]

/-- The fault of entries is that of the first that makes no projection. -/
theorem projectionsOf_eq_error_iff (limits : Limits) (entries : List Entry) (fault : Fault) :
    projectionsOf limits entries = .error fault ↔
      ∃ before e after v, entries = before ++ e :: after ∧
        (∀ b ∈ before, ∃ p, b.Makes limits p) ∧ e.Fails limits v ∧
          fault = .invalidProjection e.id v := by
  constructor
  · intro h
    induction entries with
    | nil => simp [projectionsOf] at h
    | cons e rest ih =>
      rw [projectionsOf] at h
      cases he : e.projection limits with
      | error v =>
        have hfault : fault = .invalidProjection e.id v := by simpa [he, eq_comm] using h
        have hfails := (Entry.projection_eq_error_iff limits e v).1 he
        exact ⟨[], e, rest, v, rfl, by simp, hfails, hfault⟩
      | ok p =>
        cases hrest : projectionsOf limits rest with
        | ok qs => simp [he, hrest, Except.map] at h
        | error f =>
          obtain rfl : f = fault := by simpa [he, hrest, Except.map] using h
          obtain ⟨before, e', after, v, rfl, hbefore, hfails, rfl⟩ := ih hrest
          refine ⟨e :: before, e', after, v, rfl, ?_, hfails, rfl⟩
          rw [List.forall_mem_cons]
          exact ⟨⟨p, (Entry.projection_eq_ok_iff limits e p).1 he⟩, hbefore⟩
  · rintro ⟨before, e, after, v, rfl, hbefore, hfails, rfl⟩
    induction before with
    | nil => simp [projectionsOf, (Entry.projection_eq_error_iff limits e v).2 hfails]
    | cons b before ih =>
      obtain ⟨⟨p, hp⟩, hbefore⟩ := List.forall_mem_cons.1 hbefore
      rw [List.cons_append, projectionsOf, (Entry.projection_eq_ok_iff limits b p).2 hp]
      simp [ih hbefore, Except.map]

/-- Projections made of entries have their ids. -/
theorem map_id_of_makes {limits : Limits} {entries : List Entry} {ps : List Projection}
    (h : List.Forall₂ (Entry.Makes limits) entries ps) :
    ps.map (·.id) = entries.map (·.id) := by
  induction h with
  | nil => rfl
  | cons hmakes _ ih => rw [List.map_cons, List.map_cons, hmakes.id_eq, ih]

theorem fit_of_makes {limits : Limits} {entries : List Entry} {ps : List Projection}
    (h : List.Forall₂ (Entry.Makes limits) entries ps) : ∀ p ∈ ps, p.Fit limits := by
  induction h with
  | nil => simp
  | cons hmakes _ ih => exact List.forall_mem_cons.2 ⟨hmakes.fit, ih⟩

/-! ## Reading without a checksum -/

/-- A text is that of a document: it is JSON and fits the schema. -/
def Spells (source : String) (d : Document) : Prop :=
  ∃ json, Json.parse? source = some json ∧ documentSchema.decode json.settled = .ok d

namespace Document

/-- The ids of a document in order. -/
def ids (d : Document) : List String :=
  d.entries.map (·.id)

theorem parse_eq_ok_iff (source : String) (d : Document) :
    parse source = .ok d ↔ Spells source d ∧ d.info.schema = schemaMark := by
  unfold parse Spells
  cases hjson : Json.parse? source with
  | none => simp
  | some json =>
    simp only [Option.some.injEq, exists_eq_left']
    cases hdecode : documentSchema.decode json.settled with
    | error fault => simp
    | ok e =>
      by_cases hmark : e.info.schema = schemaMark
      · simp only [hmark, if_true, Except.ok.injEq]
        exact ⟨fun h => ⟨h, h ▸ hmark⟩, And.left⟩
      · simp only [hmark, if_false, reduceCtorEq, Except.ok.injEq, false_iff, not_and]
        exact fun h => h ▸ hmark

end Document

namespace Loader

/-- A loader reads a document and its projections out of a text. -/
structure Reads (l : Loader) (source : String) (d : Document) (ps : List Projection) : Prop where
  spells : Spells source d
  mark : d.info.schema = schemaMark
  makes : List.Forall₂ (Entry.Makes l.limits) d.entries ps
  count_le : d.entries.length ≤ Catalog.maxProjections
  distinct : d.ids.Nodup

/-- Why a loader cannot read a text: the fault of the first check that fails. -/
inductive CannotRead (l : Loader) (source : String) : Fault → Prop where
  | notJson (h : Json.parse? source = none) : CannotRead l source .notJson
  | schema {json : Json} {fault : SchemaFault} (hjson : Json.parse? source = some json)
      (h : documentSchema.decode json.settled = .error fault) : CannotRead l source (.schema fault)
  | mark {d : Document} (hd : Spells source d) (h : d.info.schema ≠ schemaMark) :
      CannotRead l source (.unsupportedSchema d.info.schema)
  | entry {d : Document} {before after : List Entry} {e : Entry} {v : Violation}
      (hd : Spells source d) (hmark : d.info.schema = schemaMark)
      (hsplit : d.entries = before ++ e :: after)
      (hbefore : ∀ b ∈ before, ∃ p, b.Makes l.limits p) (h : e.Fails l.limits v) :
      CannotRead l source (.invalidProjection e.id v)
  | count {d : Document} {ps : List Projection} (hd : Spells source d)
      (hmark : d.info.schema = schemaMark)
      (hmakes : List.Forall₂ (Entry.Makes l.limits) d.entries ps)
      (h : Catalog.maxProjections < d.entries.length) :
      CannotRead l source
        (.invalidCatalog (.tooManyProjections d.entries.length Catalog.maxProjections))
  | duplicate {d : Document} {ps : List Projection} {before after : List String} {id : String}
      (hd : Spells source d) (hmark : d.info.schema = schemaMark)
      (hmakes : List.Forall₂ (Entry.Makes l.limits) d.entries ps)
      (hcount : d.entries.length ≤ Catalog.maxProjections)
      (hsplit : d.ids = before ++ id :: after) (hbefore : before.Nodup) (h : id ∈ before) :
      CannotRead l source (.invalidCatalog (.duplicateProjectionId id))

section Draft

variable {l : Loader} {source : String} {d : Document} {ps : List Projection}

/-- What a catalog is made of once the entries of a document have become projections. -/
theorem draft_of_makes (hd : Spells source d) (hmark : d.info.schema = schemaMark)
    (hmakes : List.Forall₂ (Entry.Makes l.limits) d.entries ps) :
    l.draft source =
      match Catalog.ofList l.limits ps with
      | .error v => .error (.invalidCatalog v)
      | .ok c => .ok ⟨d, checksumOf d.info ps, c⟩ := by
  have hparse := (Document.parse_eq_ok_iff source d).2 ⟨hd, hmark⟩
  have hps := (projectionsOf_eq_ok_iff l.limits d.entries ps).2 hmakes
  cases hcatalog : Catalog.ofList l.limits ps <;>
    simp only [draft, hparse, Document.projections, hps, hcatalog]

theorem Reads.draft_eq (h : l.Reads source d ps) :
    l.draft source = .ok ⟨d, checksumOf d.info ps, ⟨ps⟩⟩ := by
  have hcatalog : Catalog.ofList l.limits ps = .ok ⟨ps⟩ := by
    rw [Catalog.ofList_eq_ok_iff, map_id_of_makes h.makes, ← h.makes.length_eq]
    exact ⟨rfl, h.count_le, fit_of_makes h.makes, h.distinct⟩
  rw [draft_of_makes h.spells h.mark h.makes, hcatalog]

theorem CannotRead.draft_eq {fault : Fault} (h : l.CannotRead source fault) :
    l.draft source = .error fault := by
  cases h with
  | notJson h => simp [draft, Document.parse, h]
  | schema hjson h => simp [draft, Document.parse, hjson, h]
  | mark hd h =>
    obtain ⟨json, hjson, hdecode⟩ := hd
    simp [draft, Document.parse, hjson, hdecode, h]
  | entry hd hmark hsplit hbefore h =>
    have hparse := (Document.parse_eq_ok_iff source _).2 ⟨hd, hmark⟩
    have hps := (projectionsOf_eq_error_iff l.limits _ _).2 ⟨_, _, _, _, hsplit, hbefore, h, rfl⟩
    simp [draft, hparse, Document.projections, hps]
  | count hd hmark hmakes h =>
    have hcatalog := (Catalog.ofList_eq_error_iff (fit_of_makes hmakes) _).2
      (.inl ⟨hmakes.length_eq ▸ h, rfl⟩)
    rw [draft_of_makes hd hmark hmakes, hcatalog, hmakes.length_eq]
  | duplicate hd hmark hmakes hcount hsplit hbefore h =>
    have hcatalog := (Catalog.ofList_eq_error_iff (fit_of_makes hmakes) _).2
      (.inr ⟨hmakes.length_eq ▸ hcount, _, _, _, (map_id_of_makes hmakes).trans hsplit, hbefore, h,
        rfl⟩)
    rw [draft_of_makes hd hmark hmakes, hcatalog]

/-- Every text is read or cannot be read. -/
theorem reads_or_cannotRead (l : Loader) (source : String) :
    (∃ d ps, l.Reads source d ps) ∨ ∃ fault, l.CannotRead source fault := by
  cases hjson : Json.parse? source with
  | none => exact .inr ⟨_, .notJson hjson⟩
  | some json =>
    cases hdecode : documentSchema.decode json.settled with
    | error fault => exact .inr ⟨_, .schema hjson hdecode⟩
    | ok d =>
      have hd : Spells source d := ⟨json, hjson, hdecode⟩
      by_cases hmark : d.info.schema = schemaMark
      · cases hps : projectionsOf l.limits d.entries with
        | error fault =>
          obtain ⟨before, e, after, v, hsplit, hbefore, hfails, -⟩ :=
            (projectionsOf_eq_error_iff l.limits d.entries fault).1 hps
          exact .inr ⟨_, .entry hd hmark hsplit hbefore hfails⟩
        | ok ps =>
          have hmakes := (projectionsOf_eq_ok_iff l.limits d.entries ps).1 hps
          have hfit := fit_of_makes hmakes
          cases hcatalog : Catalog.ofList l.limits ps with
          | error v =>
            rcases (Catalog.ofList_eq_error_iff hfit v).1 hcatalog with
              ⟨hlong, -⟩ | ⟨hcount, before, id, after, hsplit, hbefore, hid, -⟩
            · exact .inr ⟨_, .count hd hmark hmakes (hmakes.length_eq ▸ hlong)⟩
            · exact .inr ⟨_, .duplicate hd hmark hmakes (hmakes.length_eq ▸ hcount)
                ((map_id_of_makes hmakes).symm.trans hsplit) hbefore hid⟩
          | ok c =>
            obtain ⟨-, hcount, -, hdistinct⟩ := (Catalog.ofList_eq_ok_iff l.limits ps c).1 hcatalog
            refine .inl ⟨d, ps, hd, hmark, hmakes, hmakes.length_eq ▸ hcount, ?_⟩
            rwa [map_id_of_makes hmakes] at hdistinct
      · exact .inr ⟨_, .mark hd hmark⟩

end Draft

end Loader

end Seed

end TreeReduction
