import TreeReduction.Proofs.TraceFormat

set_option autoImplicit false

/-!
# Corrupted binary traces

A written file in which one byte was changed is refused, unless the data section that it presents is
another one with the same digest (`Trace.decode_of_oneByteApart`). The digest covers the data
section alone, so the bytes before it need arguments of their own, and there are two.

A file that presents the data section that was written is the file that was written, or longer
(`Trace.eq_encode_of_presents`): the shortest header of those events is the only one of its length.
That settles every change inside the header section. A change of the length or of the data section
leaves the header where it was; a file that is read then presents a data section with the digest in
that header.
-/

namespace TreeReduction.Trace

open Wire

/-! ## One byte -/

/-- Bytes that differ in one place only. -/
def OneByteApart (xs ys : Bytes) : Prop :=
  ∃ front x y back, x ≠ y ∧ xs = front ++ x :: back ∧ ys = front ++ y :: back

namespace OneByteApart

variable {xs ys bytes : Bytes}

theorem length_eq (h : OneByteApart xs ys) : xs.length = ys.length := by
  obtain ⟨front, x, y, back, -, rfl, rfl⟩ := h
  rw [List.length_append, List.length_append, List.length_cons, List.length_cons]

theorem ne (h : OneByteApart xs ys) : xs ≠ ys := by
  obtain ⟨front, x, y, back, hne, rfl, rfl⟩ := h
  simpa using hne

/-- The byte lies in the first part or in the second. -/
theorem append_cases (h : OneByteApart (xs ++ ys) bytes) :
    (∃ xs', OneByteApart xs xs' ∧ bytes = xs' ++ ys) ∨
      ∃ ys', OneByteApart ys ys' ∧ bytes = xs ++ ys' := by
  obtain ⟨front, x, y, back, hne, hparts, rfl⟩ := h
  rcases List.append_eq_append_iff.1 hparts with ⟨between, rfl, rfl⟩ | ⟨between, rfl, hback⟩
  · exact .inr ⟨between ++ y :: back, ⟨between, x, y, back, hne, rfl, rfl⟩, by simp⟩
  · cases between with
    | nil => exact .inr ⟨y :: back, ⟨[], x, y, back, hne, hback.symm, rfl⟩, by simp⟩
    | cons b between =>
      obtain ⟨rfl, rfl⟩ := List.cons.inj hback
      exact .inl ⟨front ++ y :: between, ⟨front, x, y, between, hne, rfl, rfl⟩, by simp⟩

end OneByteApart

/-! ## Corruption -/

/-- Where a header that was written stands behind the length, the header section starts with it, so
the digest of the data section is the one in that header. -/
theorem digestOf_eq_of_presents {count n : Nat} (hcount : count < 2 ^ 64)
    {bytes header data size written sections : Bytes} (hpresents : Presents bytes header data)
    (hheader : Opens SpellsHeader (headerOf n data) header) (hsize : size.length = 4)
    (hbytes : bytes = size ++ (headerBytes count (digestOf written) ++ sections)) :
    digestOf data = digestOf written := by
  obtain ⟨front, hfront, rest, rfl⟩ := hheader
  obtain ⟨-, hsections⟩ := List.append_inj (hpresents.bytes_eq.symm.trans hbytes) hsize.symm
  rw [List.append_assoc] at hsections
  have hsame := (decides_header.unique hfront (shortest_header hcount written).spells hsections).1
  exact congrArg Header.checksum hsame

section

variable {t : Trace} (hlength : t.length < 2 ^ 64) (h : ∀ e ∈ t, Storable e)

include hlength h

/-- A file that is read and presents the data section of a trace is the one written for the trace,
or longer. -/
theorem eq_encode_of_presents {u : Trace} {bytes header : Bytes}
    (hpresents : Presents bytes header (eventsBytes t)) (hread : decode bytes = .ok u)
    (hle : bytes.length ≤ (encode t).length) : bytes = encode t := by
  have hspells := ((decode_eq_ok_iff bytes u).1 hread).1
  have hsame : u = t := by
    obtain ⟨header', data, hpresents', -, hevents⟩ := hspells
    obtain ⟨-, rfl⟩ := hpresents.unique hpresents'
    obtain ⟨front, hfront, rest, hdata⟩ := hevents
    rw [← List.append_nil (eventsBytes t)] at hdata
    exact (decides_events.unique hfront (shortest_events hlength h).spells hdata).1
  exact ((shortest_encode hlength h).sameOrLonger (hsame ▸ hspells)).eq_of_length_le hle

/-- A written file in which one byte was changed is refused, unless the data section that it
presents is another one with the same digest. -/
theorem decode_of_oneByteApart {bytes : Bytes} (hapart : OneByteApart (encode t) bytes) :
    (∃ fault, decode bytes = .error fault) ∨
      ∃ header data, Presents bytes header data ∧ data ≠ eventsBytes t ∧
        digestOf data = digestOf (eventsBytes t) := by
  cases hread : decode bytes with
  | error fault => exact .inl ⟨fault, rfl⟩
  | ok u =>
    right
    obtain ⟨header, data, hpresents, hheader, -⟩ := ((decode_eq_ok_iff bytes u).1 hread).1
    have hle : bytes.length ≤ (encode t).length := Nat.le_of_eq hapart.length_eq.symm
    have hdata : data ≠ eventsBytes t := by
      rintro rfl
      exact hapart.ne (eq_encode_of_presents hlength h hpresents hread hle).symm
    refine ⟨header, data, hpresents, hdata, ?_⟩
    have hwritten := presents_encode hlength
    rw [hwritten.bytes_eq] at hapart
    rcases hapart.append_cases with ⟨size, hsize, hbytes⟩ | ⟨sections, hsections, rfl⟩
    · exact digestOf_eq_of_presents hlength hpresents hheader hsize.length_eq.symm hbytes
    · rcases hsections.append_cases with ⟨header', hheader', rfl⟩ | ⟨data', -, rfl⟩
      · -- a change inside the header section leaves the data section as it was
        have hlt := hwritten.length_lt
        rw [hheader'.length_eq] at hpresents hlt
        exact absurd (hpresents.unique ⟨hlt, rfl⟩).2 hdata
      · exact digestOf_eq_of_presents hlength hpresents hheader rfl rfl

end

/-- The top bit of the number of events, set where it was not: the number goes on into the
digest. -/
theorem decode_of_oneByteApart_count :
    let bytes := (encode []).take 9 ++ 0x80 :: (encode []).drop 10
    OneByteApart (encode []) bytes ∧ ∃ fault, decode bytes = .error fault := by
  intro bytes
  have hapart : OneByteApart (encode []) bytes :=
    ⟨(encode []).take 9, 0, 0x80, (encode []).drop 10, by decide, by decide +kernel, rfl⟩
  have hpresents : Presents bytes ((bytes.take 42).drop 4) (eventsBytes []) :=
    ⟨by decide +kernel, by decide +kernel⟩
  refine ⟨hapart, ?_⟩
  rcases decode_of_oneByteApart (t := []) (by decide) (by simp) hapart with
    hfault | ⟨header, data, hpresents', hdata, -⟩
  · exact hfault
  · exact absurd (hpresents'.unique hpresents).2 hdata

end TreeReduction.Trace
