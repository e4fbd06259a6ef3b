import TreeReduction.Proofs.TraceFormat

set_option autoImplicit false

/-!
# Reading back binary traces

Of a trace that was written, only the number of its events and their indices are left to be checked
when it is read (`Trace.decode_encode`): what was written is a file in the format, so both sections
are read as what they were written from.
-/

namespace TreeReduction.Trace

open Wire

/-- Behind the header that was written with them, events are read as themselves. -/
theorem decodeEvents_eventsBytes {t : Trace} (hlength : t.length < 2 ^ 64)
    (h : ∀ e ∈ t, Storable e) :
    decodeEvents (headerOf t.length (eventsBytes t)) (eventsBytes t) =
      if maxEvents < t.length then .error (.tooManyEvents t.length)
      else (checkIndices 0 t).map fun _ => t := by
  have hread := decides_events.reads (shortest_events hlength h).spells []
  rw [List.append_nil] at hread
  simp only [decodeEvents, headerOf, ne_eq, not_true_eq_false, if_false, hread]

/-- A trace that was written is read as itself, unless it is too long or its indices do not count
up from zero. -/
theorem decode_encode {t : Trace} (hlength : t.length < 2 ^ 64) (h : ∀ e ∈ t, Storable e) :
    decode (encode t) =
      if maxEvents < t.length then .error (.tooManyEvents t.length)
      else (checkIndices 0 t).map fun _ => t := by
  have hheader := decides_header.reads (shortest_header hlength (eventsBytes t)).spells []
  rw [List.append_nil] at hheader
  rw [(presents_encode hlength).decode_eq hheader]
  exact decodeEvents_eventsBytes hlength h

/-- A trace that was written is read as itself when it is not too long and its indices count up from
zero. -/
theorem decode_encode_eq_ok_iff {t : Trace} (hlength : t.length < 2 ^ 64)
    (h : ∀ e ∈ t, Storable e) :
    decode (encode t) = .ok t ↔
      t.length ≤ maxEvents ∧ t.map (·.index) = List.range t.length := by
  rw [decode_encode hlength h, List.range_eq_range', ← checkIndices_eq_ok_iff]
  split
  · rename_i hlong
    simp [Nat.not_le.2 hlong]
  · rename_i hshort
    cases hcheck : checkIndices 0 t with
    | error fault => simp [Except.map]
    | ok u => simp [Except.map, Nat.not_lt.1 hshort]

/-- Every trace can be written: the length of its header fits the four bytes for it. What is written
is the shortest file in the format. It is read as the trace when there are not too many events and
they are numbered from zero without gaps, and is refused in every other case. -/
theorem encode_roundTrips_iff {t : Trace} (hlength : t.length < 2 ^ 64)
    (h : ∀ e ∈ t, Storable e) :
    (headerBytes t.length (digestOf (eventsBytes t))).length < 2 ^ 32 ∧
    Shortest SpellsFile t (encode t) ∧
    (decode (encode t) = .ok t ↔
      t.length ≤ maxEvents ∧ t.map (·.index) = List.range t.length) ∧
    ((∃ fault, decode (encode t) = .error fault) ↔
      ¬(t.length ≤ maxEvents ∧ t.map (·.index) = List.range t.length)) := by
  have hreads := decode_encode_eq_ok_iff hlength h
  refine ⟨(presents_encode hlength).length_lt, shortest_encode hlength h, hreads, ?_⟩
  rw [← hreads, decode_encode hlength h]
  split
  · simp
  · cases checkIndices 0 t <;> simp [Except.map]

/-- Ids that are empty, not ASCII and missing, and the same events with a gap. -/
theorem encode_roundTrips_iff_ids :
    let d := Digest.ofText "a"
    let e := Digest.ofText "b"
    let t : Trace := [⟨0, d, e, some ""⟩, ⟨1, e, d, some "é"⟩, ⟨2, d, d, none⟩]
    let gapped : Trace := [⟨0, d, e, some ""⟩, ⟨2, d, d, none⟩]
    decode (encode t) = .ok t ∧ ∃ fault, decode (encode gapped) = .error fault := by
  intro d e t gapped
  have hstorable : ∀ f ∈ t ++ gapped, Storable f := by
    simp only [t, gapped, List.cons_append, List.nil_append, List.forall_mem_cons]
    refine ⟨?_, ?_, ?_, ?_, ?_, by simp⟩ <;> exact ⟨by decide, by decide⟩
  rw [List.forall_mem_append] at hstorable
  obtain ⟨-, -, hreads, -⟩ := encode_roundTrips_iff (t := t) (by decide) hstorable.1
  obtain ⟨-, -, -, hrefused⟩ := encode_roundTrips_iff (t := gapped) (by decide) hstorable.2
  exact ⟨hreads.2 ⟨by decide, rfl⟩, hrefused.2 fun h => absurd h.2 (by decide)⟩

end TreeReduction.Trace
