import Mathlib.Data.List.Sort
import TreeReduction.Proofs.Drafting

set_option autoImplicit false

/-!
# Loading seeds

Which texts a loader takes for intact seeds, and why it refuses the others. Of a document that it
could read it asks that the checksum declared is the one computed, and so is the pinned one, that no
id is missing and that the fallback comes last (`Seed.Loader.Trusts`). `Seed.Loader.Rejects` has the
faults, each constructor with the conditions of the checks before its own.

Both stages together are the loader (`Seed.Loader.load_eq_iff`).
-/

namespace TreeReduction

namespace Seed

/-! ## The checks of a document that was read -/

/-- The fallback of a seed: the id that is named as such, or else the first expected id with the
right ending. -/
def Meta.IsFallback (m : Meta) (id : String) : Prop :=
  m.fallback = some id ∨
    m.fallback = none ∧ ∃ before after, m.expectedIds = before ++ id :: after ∧
      Meta.fallbackEnding.toList <:+ id.toList ∧
        ∀ b ∈ before, ¬Meta.fallbackEnding.toList <:+ b.toList

theorem Meta.fallbackId?_eq_some_iff (m : Meta) (id : String) :
    m.fallbackId? = some id ↔ m.IsFallback id := by
  have hending : ∀ name : String, (!fallbackEnding.toList.isSuffixOf name.toList) = true ↔
      ¬fallbackEnding.toList <:+ name.toList := by
    intro name
    rw [← List.isSuffixOf_iff_suffix, Bool.not_eq_true', Bool.not_eq_true]
  unfold fallbackId? IsFallback
  cases m.fallback with
  | some name => simp
  | none =>
    rw [List.find?_eq_some_iff_append]
    simp only [hending, List.isSuffixOf_iff_suffix, reduceCtorEq, true_and, false_or]
    constructor
    · rintro ⟨hid, before, after, hsplit, hbefore⟩
      exact ⟨before, after, hsplit, hid, hbefore⟩
    · rintro ⟨before, after, hsplit, hid, hbefore⟩
      exact ⟨hid, before, after, hsplit, hbefore⟩

/-- The ids that a check of presence names: those missing, in order and each once. -/
theorem mem_missing_iff (ids wanted : List String) (id : String) :
    id ∈ Entries.keys (Entries.ofList ((wanted.filter fun id => !ids.contains id).map (·, ()))) ↔
      id ∈ wanted ∧ id ∉ ids := by
  rw [Entries.mem_keys_ofList_iff, List.map_map]
  simp

theorem checkPresent_eq_ok_iff (ids wanted : List String) :
    checkPresent ids wanted = .ok () ↔ ∀ id ∈ wanted, id ∈ ids := by
  have hmissing := mem_missing_iff ids wanted
  unfold checkPresent
  split
  · rename_i hnil
    simp only [hnil, List.not_mem_nil, false_iff, not_and, not_not] at hmissing
    exact iff_of_true rfl hmissing
  · rename_i hne
    obtain ⟨id, hid⟩ := List.exists_mem_of_ne_nil _ hne
    obtain ⟨hwanted, hno⟩ := (hmissing id).1 hid
    exact iff_of_false (by simp) fun h => hno (h id hwanted)

theorem checkPresent_eq_error_iff (ids wanted : List String) (fault : Fault) :
    checkPresent ids wanted = .error fault ↔
      ∃ missing, missing ≠ [] ∧ missing.Pairwise (· < ·) ∧
        (∀ id, id ∈ missing ↔ id ∈ wanted ∧ id ∉ ids) ∧ fault = .missingProjections missing := by
  have hmissing := mem_missing_iff ids wanted
  have hordered := (Entries.pairwise_keys_iff _).2 (Entries.ordered_ofList
    ((wanted.filter fun id => !ids.contains id).map (·, ())))
  -- ascending lists with the same members are one list
  have hunique : ∀ missing : List String, missing.Pairwise (· < ·) →
      (∀ id, id ∈ missing ↔ id ∈ wanted ∧ id ∉ ids) →
      Entries.keys (Entries.ofList ((wanted.filter fun id => !ids.contains id).map (·, ()))) =
        missing :=
    fun missing hm hmem => hordered.eq_of_mem_iff hm fun id => (hmissing id).trans (hmem id).symm
  unfold checkPresent
  split
  · rename_i hnil
    refine iff_of_false (by simp) ?_
    rintro ⟨missing, hne, hm, hmem, -⟩
    exact hne ((hunique missing hm hmem).symm.trans hnil)
  · rename_i hne
    constructor
    · intro h
      exact ⟨_, hne, hordered, hmissing, (Except.error.inj h).symm⟩
    · rintro ⟨missing, -, hm, hmem, rfl⟩
      rw [hunique missing hm hmem]

theorem checkChecksums_cons_eq_ok_iff (actual declared : String) (pinned : Option String) :
    checkChecksums actual (declared :: pinned.toList) = .ok () ↔
      sameIgnoringCase declared actual = true ∧
        ∀ pin ∈ pinned, sameIgnoringCase pin actual = true := by
  cases hdeclared : sameIgnoringCase declared actual with
  | false => simp [checkChecksums, hdeclared]
  | true =>
    cases pinned with
    | none => simp [checkChecksums, hdeclared]
    | some pin => simp [checkChecksums, hdeclared]

/-- The declared checksum is looked at before the pinned one. -/
theorem checkChecksums_cons_eq_error_iff (actual declared : String) (pinned : Option String)
    (fault : Fault) :
    checkChecksums actual (declared :: pinned.toList) = .error fault ↔
      (sameIgnoringCase declared actual = false ∧ fault = .checksumMismatch declared actual) ∨
      (sameIgnoringCase declared actual = true ∧ ∃ pin, pinned = some pin ∧
        sameIgnoringCase pin actual = false ∧ fault = .checksumMismatch pin actual) := by
  cases hdeclared : sameIgnoringCase declared actual with
  | false => simp [checkChecksums, hdeclared, @eq_comm _ fault]
  | true =>
    cases pinned with
    | none => simp [checkChecksums, hdeclared]
    | some pin =>
      cases hpin : sameIgnoringCase pin actual <;>
        simp [checkChecksums, hdeclared, hpin, @eq_comm _ fault]

/-- A fallback that is present comes last when it is the last id. -/
theorem checkFallback_eq_ok_iff {ids : List String} {fallback : Option String}
    (hpresent : ∀ id ∈ fallback, id ∈ ids) :
    checkFallback ids fallback = .ok () ↔ ∀ id ∈ fallback, ids.getLast? = some id := by
  cases fallback with
  | none => simp [checkFallback]
  | some name =>
    have hne : ids ≠ [] := List.ne_nil_of_mem (hpresent name rfl)
    simp [checkFallback, List.getLast?_eq_some_getLast hne]

theorem checkFallback_eq_error_iff {ids : List String} {fallback : Option String}
    (hpresent : ∀ id ∈ fallback, id ∈ ids) (fault : Fault) :
    checkFallback ids fallback = .error fault ↔
      ∃ name last, fallback = some name ∧ ids.getLast? = some last ∧ last ≠ name ∧
        fault = .fallbackNotLast name last := by
  cases fallback with
  | none => simp [checkFallback]
  | some name =>
    have hne : ids ≠ [] := List.ne_nil_of_mem (hpresent name rfl)
    by_cases hlast : ids.getLast hne = name
    · simp [checkFallback, List.getLast?_eq_some_getLast hne, hlast]
    · simp [checkFallback, List.getLast?_eq_some_getLast hne, hlast, @eq_comm _ fault]

namespace Loader

/-- An id has to be present: the seed expects it, the loader asks for it or it is the fallback. -/
def Wants (l : Loader) (d : Document) (id : String) : Prop :=
  id ∈ d.info.expectedIds ∨ id ∈ l.requiredIds ∨ d.info.IsFallback id

/-- The checksum that a document declares is the one computed, up to the case of letters. -/
def Declares (d : Document) (ps : List Projection) : Prop :=
  ∃ declared, d.checksum = some declared ∧
    sameIgnoringCase declared (checksumOf d.info ps) = true

/-- The pinned checksum, if there is one, is the one computed, up to the case of letters. -/
def PinAgrees (l : Loader) (d : Document) (ps : List Projection) : Prop :=
  ∀ pin ∈ l.pinned, sameIgnoringCase pin (checksumOf d.info ps) = true

/-- A loader trusts a document that it has read. -/
structure Trusts (l : Loader) (d : Document) (ps : List Projection) : Prop where
  declared : Declares d ps
  pinned : l.PinAgrees d ps
  present : ∀ id, l.Wants d id → id ∈ d.ids
  fallback_last : ∀ id, d.info.IsFallback id → d.ids.getLast? = some id

/-- Why a loader rejects a document that it has read: the fault of the first check that fails. -/
inductive Rejects (l : Loader) (d : Document) (ps : List Projection) : Fault → Prop where
  | undeclared (h : d.checksum = none) : Rejects l d ps (.schema (.missingField "checksum"))
  | declared {declared : String} (hdeclared : d.checksum = some declared)
      (h : sameIgnoringCase declared (checksumOf d.info ps) = false) :
      Rejects l d ps (.checksumMismatch declared (checksumOf d.info ps))
  | pinned {pin : String} (hdeclares : Declares d ps) (hpin : l.pinned = some pin)
      (h : sameIgnoringCase pin (checksumOf d.info ps) = false) :
      Rejects l d ps (.checksumMismatch pin (checksumOf d.info ps))
  | missing {ids : List String} (hdeclares : Declares d ps) (hpin : l.PinAgrees d ps)
      (hne : ids ≠ []) (hascending : ids.Pairwise (· < ·))
      (h : ∀ id, id ∈ ids ↔ l.Wants d id ∧ id ∉ d.ids) :
      Rejects l d ps (.missingProjections ids)
  | misplaced {name last : String} (hdeclares : Declares d ps) (hpin : l.PinAgrees d ps)
      (hpresent : ∀ id, l.Wants d id → id ∈ d.ids) (hname : d.info.IsFallback name)
      (hlast : d.ids.getLast? = some last) (h : last ≠ name) :
      Rejects l d ps (.fallbackNotLast name last)

/-- What a loader makes of a document that it trusts. -/
def seedOf (d : Document) (ps : List Projection) : Seed :=
  ⟨⟨ps⟩, d.info.name, d.info.version, checksumOf d.info ps⟩

section Verdict

variable {l : Loader} {source : String} {d : Document} {ps : List Projection}

theorem mem_wanted_iff (l : Loader) (d : Document) (id : String) :
    id ∈ d.info.expectedIds ++ l.requiredIds ++ d.info.fallbackId?.toList ↔ l.Wants d id := by
  simp [Wants, Meta.fallbackId?_eq_some_iff]

/-- Three checks in a row pass when each does. -/
theorem bind_eq_ok_iff {first second third : Except Fault Unit} {s t : Seed} :
    (first >>= fun _ => second >>= fun _ => third >>= fun _ => pure s) = .ok t ↔
      first = .ok () ∧ second = .ok () ∧ third = .ok () ∧ t = s := by
  cases first <;> cases second <;> cases third <;>
    simp [bind, Except.bind, pure, Except.pure, eq_comm]

/-- Three checks in a row fail where the first of them does. -/
theorem bind_eq_error_iff {first second third : Except Fault Unit} {s : Seed} {fault : Fault} :
    (first >>= fun _ => second >>= fun _ => third >>= fun _ => pure s) = .error fault ↔
      first = .error fault ∨ (first = .ok () ∧ second = .error fault) ∨
        (first = .ok () ∧ second = .ok () ∧ third = .error fault) := by
  cases first <;> cases second <;> cases third <;> simp [bind, Except.bind, pure, Except.pure]

/-- What is left to do once a document is read. -/
theorem Reads.load_eq (h : l.Reads source d ps) :
    l.load source =
      match d.checksum with
      | none => .error (.schema (.missingField "checksum"))
      | some declared =>
        checkChecksums (checksumOf d.info ps) (declared :: l.pinned.toList) >>= fun _ =>
        checkPresent d.ids (d.info.expectedIds ++ l.requiredIds ++ d.info.fallbackId?.toList)
          >>= fun _ =>
        checkFallback d.ids d.info.fallbackId? >>= fun _ => pure (seedOf d ps) := by
  have hids : Catalog.ids ⟨ps⟩ = d.ids := map_id_of_makes h.makes
  rw [load, h.draft_eq]
  simp only [bind, Except.bind, hids]
  rfl

/-- With all ids present, the fallback is looked for at the end. -/
theorem checkFallback_iff (hpresent : ∀ id, l.Wants d id → id ∈ d.ids) :
    (checkFallback d.ids d.info.fallbackId? = .ok () ↔
      ∀ id, d.info.IsFallback id → d.ids.getLast? = some id) ∧
    ∀ fault, checkFallback d.ids d.info.fallbackId? = .error fault ↔
      ∃ name last, d.info.IsFallback name ∧ d.ids.getLast? = some last ∧ last ≠ name ∧
        fault = .fallbackNotLast name last := by
  have hfallback : ∀ id, id ∈ d.info.fallbackId? ↔ d.info.IsFallback id :=
    d.info.fallbackId?_eq_some_iff
  have hmem : ∀ id ∈ d.info.fallbackId?, id ∈ d.ids :=
    fun id hid => hpresent id (.inr (.inr ((hfallback id).1 hid)))
  refine ⟨?_, fun fault => ?_⟩
  · rw [checkFallback_eq_ok_iff hmem]
    simp only [hfallback]
  · rw [checkFallback_eq_error_iff hmem]
    simp only [Meta.fallbackId?_eq_some_iff]

theorem Reads.load_eq_ok_iff (h : l.Reads source d ps) (s : Seed) :
    l.load source = .ok s ↔ l.Trusts d ps ∧ s = seedOf d ps := by
  rw [h.load_eq]
  cases hchecksum : d.checksum with
  | none =>
    refine iff_of_false (by simp) ?_
    rintro ⟨⟨⟨declared, hdeclared, -⟩, -⟩, -⟩
    simp [hchecksum] at hdeclared
  | some declared =>
    have hdeclares : sameIgnoringCase declared (checksumOf d.info ps) = true ↔
        Declares d ps := by
      simp [Declares, hchecksum]
    simp only [bind_eq_ok_iff, checkChecksums_cons_eq_ok_iff, checkPresent_eq_ok_iff,
      mem_wanted_iff, hdeclares]
    constructor
    · rintro ⟨⟨hdeclares, hpin⟩, hpresent, hlast, rfl⟩
      exact ⟨⟨hdeclares, hpin, hpresent, (checkFallback_iff hpresent).1.1 hlast⟩, rfl⟩
    · rintro ⟨⟨hdeclares, hpin, hpresent, hlast⟩, rfl⟩
      exact ⟨⟨hdeclares, hpin⟩, hpresent, (checkFallback_iff hpresent).1.2 hlast, rfl⟩

theorem Reads.load_eq_error_iff (h : l.Reads source d ps) (fault : Fault) :
    l.load source = .error fault ↔ l.Rejects d ps fault := by
  rw [h.load_eq]
  cases hchecksum : d.checksum with
  | none =>
    have hno : ¬Declares d ps := by simp [Declares, hchecksum]
    constructor
    · intro hfault
      exact Except.error.inj hfault ▸ .undeclared hchecksum
    · rintro (- | ⟨hdeclared, -⟩ | hdeclares | hdeclares | hdeclares)
      · rfl
      · simp [hchecksum] at hdeclared
      all_goals exact absurd hdeclares hno
  | some declared =>
    have hdeclares : sameIgnoringCase declared (checksumOf d.info ps) = true ↔
        Declares d ps := by
      simp [Declares, hchecksum]
    simp only [bind_eq_error_iff, checkChecksums_cons_eq_error_iff, checkChecksums_cons_eq_ok_iff,
      checkPresent_eq_error_iff, checkPresent_eq_ok_iff, mem_wanted_iff, hdeclares]
    constructor
    · rintro ((⟨hno, rfl⟩ | ⟨hdeclares, pin, hpin, hno, rfl⟩) |
        ⟨⟨hdeclares, hpin⟩, ids, hne, hascending, hids, rfl⟩ |
        ⟨⟨hdeclares, hpin⟩, hpresent, hcheck⟩)
      · exact .declared hchecksum hno
      · exact .pinned hdeclares hpin hno
      · exact .missing hdeclares hpin hne hascending hids
      · obtain ⟨name, last, hname, hlast, hne, rfl⟩ :=
          ((checkFallback_iff hpresent).2 fault).1 hcheck
        exact .misplaced hdeclares hpin hpresent hname hlast hne
    · intro hrejects
      cases hrejects with
      | undeclared hnone => simp [hchecksum] at hnone
      | declared hdeclared hno =>
        obtain rfl := Option.some.inj (hchecksum.symm.trans hdeclared)
        exact .inl (.inl ⟨hno, rfl⟩)
      | pinned hdeclares hpin hno => exact .inl (.inr ⟨hdeclares, _, hpin, hno, rfl⟩)
      | missing hdeclares hpin hne hascending hids =>
        exact .inr (.inl ⟨⟨hdeclares, hpin⟩, _, hne, hascending, hids, rfl⟩)
      | misplaced hdeclares hpin hpresent hname hlast hne =>
        have hfault := ((checkFallback_iff hpresent).2 _).2 ⟨_, _, hname, hlast, hne, rfl⟩
        exact .inr (.inr ⟨⟨hdeclares, hpin⟩, hpresent, hfault⟩)

theorem CannotRead.load_eq {fault : Fault} (h : l.CannotRead source fault) :
    l.load source = .error fault := by
  rw [load, h.draft_eq]
  rfl

/-- A seed that was loaded is that of a document that was read and trusted. -/
theorem exists_reads_of_load {s : Seed} (h : l.load source = .ok s) :
    ∃ d ps, l.Reads source d ps ∧ l.Trusts d ps ∧ s = seedOf d ps := by
  rcases reads_or_cannotRead l source with ⟨d, ps, hreads⟩ | ⟨fault, hcannot⟩
  · obtain ⟨htrusts, rfl⟩ := (hreads.load_eq_ok_iff s).1 h
    exact ⟨d, ps, hreads, htrusts, rfl⟩
  · simp [hcannot.load_eq] at h

end Verdict

end Loader

end Seed

end TreeReduction
