import TreeReduction.Proofs.WireGrammar
import TreeReduction.Trace.Binary

set_option autoImplicit false

/-!
# The format of binary traces

Which files are read as a trace, and which one of them is written. `Trace.SpellsFile` is the format
of a file, said without reading: the length of a header section in four bytes, that section, and a
data section. Each section starts with a spelling of what it holds and may go on with bytes that are
not looked at; the digest in the header is that of the whole data section.

Those files are read whose events are not too many and count up from zero
(`Trace.decode_eq_ok_iff`). The file that is written is the one shortest file of its trace
(`Trace.shortest_encode`), so a file of that length is the one that was written.
-/

namespace TreeReduction

theorem Digest.toList_of_ofBytes? {bytes : List UInt8} {d : Digest} (h : ofBytes? bytes = some d) :
    d.toList = bytes := by
  unfold ofBytes? at h
  split at h
  · obtain rfl := Option.some.inj h
    rfl
  · simp at h

namespace Trace

open Wire

/-! ## Events -/

/-- The spellings of a digest: its bytes. -/
def SpellsDigest (d : Digest) (bytes : Bytes) : Prop :=
  bytes = d.toList

theorem decides_digest : Decides readDigest SpellsDigest := by
  intro bytes d rest
  constructor
  · intro h
    rw [readDigest] at h
    split at h
    · simp at h
    · rename_i bs bytes' hbytes
      obtain ⟨bs, ⟨-, rfl⟩, rfl⟩ := (decides_bytes 32 bytes bs bytes').1 hbytes
      split at h
      · rename_i d' hdigest
        rw [Except.ok.injEq, Prod.mk.injEq] at h
        obtain ⟨rfl, rfl⟩ := h
        exact ⟨bs, (Digest.toList_of_ofBytes? hdigest).symm, rfl⟩
      · simp at h
  · rintro ⟨front, rfl, rfl⟩
    have hbytes := reads_bytes d.toList rest
    rw [Digest.length_toList] at hbytes
    simp only [readDigest, hbytes, Digest.ofBytes?_toList]

/-- The spellings of an event: its fields in order. -/
def SpellsEvent (e : TraceEvent) (bytes : Bytes) : Prop :=
  ∃ index projection, SpellsNumber e.index index ∧ SpellsOptionalText e.projection projection ∧
    bytes = index ++ (e.before.toList ++ (e.after.toList ++ projection))

theorem decides_event : Decides readEvent SpellsEvent := by
  intro bytes e rest
  simp only [readEvent, decides_number.bind_eq_ok_iff, decides_digest.bind_eq_ok_iff,
    decides_optionalText.bind_eq_ok_iff, pure, Except.pure, Except.ok.injEq, Prod.mk.injEq]
  constructor
  · rintro ⟨n, index, _, hindex, rfl, before, _, _, rfl, rfl, after, _, _, rfl, rfl,
      o, projection, _, hprojection, rfl, rfl, rfl⟩
    exact ⟨_, ⟨index, projection, hindex, hprojection, rfl⟩, by simp⟩
  · rintro ⟨_, ⟨index, projection, hindex, hprojection, rfl⟩, rfl⟩
    exact ⟨_, index, _, hindex, List.append_assoc .., e.before, _, _, rfl, List.append_assoc ..,
      e.after, _, _, rfl, List.append_assoc .., _, projection, rest, hprojection, rfl, rfl, rfl⟩

/-- The numbers in an event are among those that are read. -/
structure Storable (e : TraceEvent) : Prop where
  index_lt : e.index < 2 ^ 64
  projection_lt : ∀ id ∈ e.projection, id.utf8ByteSize < 2 ^ 64

theorem SpellsEvent.storable {e : TraceEvent} {bytes : Bytes} (h : SpellsEvent e bytes) :
    Storable e := by
  obtain ⟨index, projection, hindex, hprojection, -⟩ := h
  refine ⟨hindex.lt, fun id hid => ?_⟩
  rw [Option.mem_def] at hid
  rw [hid] at hprojection
  obtain ⟨front, ⟨count, hcount, -⟩, -⟩ := hprojection
  exact hcount.lt

theorem shortest_event {e : TraceEvent} (h : Storable e) :
    Shortest SpellsEvent e (eventBytes e) := by
  have hindex := shortest_number h.index_lt
  have hprojection := shortest_optionalText h.projection_lt
  refine ⟨⟨_, _, hindex.spells, hprojection.spells, rfl⟩, ?_⟩
  rintro bytes ⟨index, projection, hindex', hprojection', rfl⟩
  exact (hindex.sameOrLonger hindex').append
    (.append (.refl _) (.append (.refl _) (hprojection.sameOrLonger hprojection')))

/-- The spellings of all events: their number, and the events one after the other. -/
def SpellsEvents (t : Trace) (bytes : Bytes) : Prop :=
  ∃ count events, SpellsNumber t.length count ∧ SpellsMany SpellsEvent t events ∧
    bytes = count ++ events

theorem decides_events : Decides readEvents SpellsEvents := by
  intro bytes t rest
  simp only [readEvents, decides_number.bind_eq_ok_iff, readMany_eq_ok_iff decides_event]
  constructor
  · rintro ⟨n, count, _, hcount, rfl, rfl, events, hevents, rfl⟩
    exact ⟨_, ⟨count, events, hcount, hevents, rfl⟩, (List.append_assoc ..).symm⟩
  · rintro ⟨_, ⟨count, events, hcount, hevents, rfl⟩, rfl⟩
    exact ⟨_, count, _, hcount, List.append_assoc .., rfl, events, hevents, rfl⟩

theorem SpellsEvents.storable {t : Trace} {bytes : Bytes} (h : SpellsEvents t bytes) :
    ∀ e ∈ t, Storable e := by
  obtain ⟨count, events, -, hevents, -⟩ := h
  induction hevents with
  | nil => simp
  | cons hevent _ ih => exact List.forall_mem_cons.2 ⟨hevent.storable, ih⟩

theorem shortest_events {t : Trace} (hlength : t.length < 2 ^ 64) (h : ∀ e ∈ t, Storable e) :
    Shortest SpellsEvents t (eventsBytes t) := by
  have hcount := shortest_number hlength
  have hevents : Shortest (SpellsMany SpellsEvent) t (t.flatMap eventBytes) :=
    shortest_many fun e he => shortest_event (h e he)
  refine ⟨⟨_, _, hcount.spells, hevents.spells, rfl⟩, ?_⟩
  rintro bytes ⟨count, events, hcount', hevents', rfl⟩
  exact (hcount.sameOrLonger hcount').append (hevents.sameOrLonger hevents')

/-! ## Headers -/

/-- The spellings of a header: its fields in order, the mark in four bytes and the version in
one. -/
def SpellsHeader (h : Header) (bytes : Bytes) : Prop :=
  ∃ count, h.mark.length = 4 ∧ h.version.length = 1 ∧ SpellsNumber h.count count ∧
    bytes = h.mark ++ (h.version ++ (count ++ h.checksum.toList))

theorem decides_header : Decides readHeader SpellsHeader := by
  intro bytes h rest
  simp only [readHeader, (decides_bytes 4).bind_eq_ok_iff, (decides_bytes 1).bind_eq_ok_iff,
    decides_number.bind_eq_ok_iff, decides_digest.bind_eq_ok_iff, pure, Except.pure,
    Except.ok.injEq, Prod.mk.injEq]
  constructor
  · rintro ⟨mark, _, _, ⟨hmark, rfl⟩, rfl, version, _, _, ⟨hversion, rfl⟩, rfl, n, count, _, hcount,
      rfl, checksum, _, _, rfl, rfl, rfl, rfl⟩
    exact ⟨_, ⟨count, hmark, hversion, hcount, rfl⟩, by simp⟩
  · rintro ⟨_, ⟨count, hmark, hversion, hcount, rfl⟩, rfl⟩
    exact ⟨_, _, _, ⟨hmark, rfl⟩, List.append_assoc .., _, _, _, ⟨hversion, rfl⟩,
      List.append_assoc .., _, count, _, hcount, List.append_assoc .., _, _, rest, rfl, rfl, rfl,
      rfl⟩

/-- The header that is written for some events. -/
def headerOf (count : Nat) (data : Bytes) : Header :=
  ⟨mark, [version], count, digestOf data⟩

theorem shortest_header {count : Nat} (h : count < 2 ^ 64) (data : Bytes) :
    Shortest SpellsHeader (headerOf count data) (headerBytes count (digestOf data)) := by
  have hcount := shortest_number h
  have hbytes : ∀ number : Bytes, mark ++ (version :: (number ++ (digestOf data).toList)) =
      mark ++ ([version] ++ (number ++ (digestOf data).toList)) := by simp
  refine ⟨⟨_, rfl, rfl, hcount.spells, hbytes _⟩, ?_⟩
  rintro bytes ⟨number, -, -, hnumber, rfl⟩
  rw [headerBytes, hbytes]
  exact .append (.refl _) (.append (.refl _) ((hcount.sameOrLonger hnumber).append (.refl _)))

/-! ## Sections -/

theorem guard_eq_ok_iff {ε α : Type} {p : Prop} [Decidable p] {fault : ε} {rest : Except ε α}
    {a : α} : (if p then .error fault else rest) = .ok a ↔ ¬p ∧ rest = .ok a := by
  split <;> simp [*]

/-- A file presents a header section and a data section: four bytes with the length of the first,
and the two. -/
structure Presents (bytes header data : Bytes) : Prop where
  length_lt : header.length < 2 ^ 32
  bytes_eq : bytes = lengthBytes header.length ++ (header ++ data)

/-- A length below 2³² is read from its four bytes. -/
theorem length_of_bytes {n : Nat} (h : n < 2 ^ 32) :
    n.toUInt8.toNat + Nat.pow 2 8 * (n / Nat.pow 2 8).toUInt8.toNat +
      Nat.pow 2 16 * (n / Nat.pow 2 16).toUInt8.toNat +
      Nat.pow 2 24 * (n / Nat.pow 2 24).toUInt8.toNat = n := by
  simp only [Nat.toUInt8, UInt8.toNat_ofNat', Nat.pow_eq]
  omega

theorem lengthBytes_inj {m n : Nat} (hm : m < 2 ^ 32) (hn : n < 2 ^ 32)
    (h : lengthBytes m = lengthBytes n) : m = n := by
  simp only [lengthBytes, List.cons.injEq, and_true] at h
  obtain ⟨h₀, h₁, h₂, h₃⟩ := h
  rw [← length_of_bytes hm, ← length_of_bytes hn, h₀, h₁, h₂, h₃]

theorem lengthBytes_of_bytes (a b c d : UInt8) :
    lengthBytes (a.toNat + Nat.pow 2 8 * b.toNat + Nat.pow 2 16 * c.toNat +
      Nat.pow 2 24 * d.toNat) = [a, b, c, d] := by
  have ha := a.toNat_lt
  have hb := b.toNat_lt
  have hc := c.toNat_lt
  have hd := d.toNat_lt
  simp only [lengthBytes, List.cons.injEq, and_true, Nat.toUInt8, ← UInt8.toNat_inj,
    UInt8.toNat_ofNat', Nat.pow_eq]
  omega

/-- A file presents its sections in one way only. -/
theorem Presents.unique {bytes header data header' data' : Bytes} (h : Presents bytes header data)
    (h' : Presents bytes header' data') : header = header' ∧ data = data' := by
  obtain ⟨hlength, hsections⟩ := List.append_inj (h.bytes_eq.symm.trans h'.bytes_eq) rfl
  exact List.append_inj hsections (lengthBytes_inj h.length_lt h'.length_lt hlength)

/-- Reading a file is reading the sections that it presents. -/
theorem Presents.decode_eq {bytes header data rest : Bytes} {h : Header}
    (hpresents : Presents bytes header data) (hread : readHeader header = .ok (h, rest)) :
    decode bytes = decodeEvents h data := by
  rw [hpresents.bytes_eq]
  simp only [lengthBytes, List.cons_append, List.nil_append, decode]
  rw [length_of_bytes hpresents.length_lt, if_neg (by simp), List.take_left, List.drop_left]
  simp only [hread]

theorem Presents.decode_eq_error {bytes header data : Bytes} {fault : Fault}
    (hpresents : Presents bytes header data) (hread : readHeader header = .error fault) :
    decode bytes = .error (.header fault) := by
  rw [hpresents.bytes_eq]
  simp only [lengthBytes, List.cons_append, List.nil_append, decode]
  rw [length_of_bytes hpresents.length_lt, if_neg (by simp), List.take_left]
  simp only [hread]

theorem presents_of_length_le {a b c d : UInt8} {sections : Bytes} {n : Nat}
    (hbytes : lengthBytes n = [a, b, c, d]) (hlt : n < 2 ^ 32) (hle : n ≤ sections.length) :
    Presents (a :: b :: c :: d :: sections) (sections.take n) (sections.drop n) := by
  have hlength := List.length_take_of_le hle
  refine ⟨by omega, ?_⟩
  rw [hlength, hbytes, List.take_append_drop]
  rfl

theorem exists_presents_of_decode {bytes : Bytes} {t : Trace} (h : decode bytes = .ok t) :
    ∃ header data, Presents bytes header data := by
  unfold decode at h
  split at h
  · rename_i a b c d sections
    obtain ⟨hle, -⟩ := guard_eq_ok_iff.1 h
    have ha := a.toNat_lt
    have hb := b.toNat_lt
    have hc := c.toNat_lt
    have hd := d.toNat_lt
    refine ⟨_, _, presents_of_length_le (lengthBytes_of_bytes a b c d) ?_ (Nat.not_lt.1 hle)⟩
    simp only [Nat.pow_eq]
    omega
  · simp at h

/-! ## Files -/

/-- The indices that are accepted are those that count up. -/
theorem checkIndices_eq_ok_iff (t : Trace) (expected : Nat) :
    checkIndices expected t = .ok () ↔ t.map (·.index) = List.range' expected t.length := by
  induction t generalizing expected with
  | nil => simp [checkIndices]
  | cons e rest ih =>
    rw [checkIndices, List.map_cons, List.length_cons, List.range'_succ, List.cons.injEq]
    split
    · rename_i hindex
      rw [ih, hindex]
      simp
    · rename_i hindex
      simp [hindex]

/-- The checks of a header and the bytes behind it, all of which have to pass. -/
theorem decodeEvents_eq_ok_iff (h : Header) (data : Bytes) (t : Trace) :
    decodeEvents h data = .ok t ↔
      h = headerOf t.length data ∧ Opens SpellsEvents t data ∧ t.length ≤ maxEvents ∧
        t.map (·.index) = List.range t.length := by
  rw [List.range_eq_range', ← checkIndices_eq_ok_iff, decides_events.opens_iff]
  simp only [decodeEvents, guard_eq_ok_iff, Decidable.not_not, Nat.not_lt]
  constructor
  · rintro ⟨hmark, hversion, hcount, hchecksum, hread⟩
    split at hread
    · simp at hread
    · rename_i t' rest hevents
      obtain ⟨hlength, hread⟩ := guard_eq_ok_iff.1 hread
      cases hindices : checkIndices 0 t' with
      | error fault => simp [hindices, Except.map] at hread
      | ok _ =>
        obtain rfl : t' = t := by simpa [hindices, Except.map] using hread
        have hcount' : t'.length = h.count := Decidable.not_not.1 hlength
        have hheader : h = headerOf t'.length data := by
          rw [headerOf, ← hmark, ← hversion, hcount', hchecksum]
        exact ⟨hheader, ⟨rest, hevents⟩, hcount' ▸ hcount, hindices⟩
  · rintro ⟨rfl, ⟨rest, hread⟩, hcount, hindices⟩
    refine ⟨rfl, rfl, hcount, rfl, ?_⟩
    simp [headerOf, hread, hindices, Except.map]

/-- The format of a file: a header section that starts with the header of its data section, and a
data section that starts with the events. -/
def SpellsFile (t : Trace) (bytes : Bytes) : Prop :=
  ∃ header data, Presents bytes header data ∧
    Opens SpellsHeader (headerOf t.length data) header ∧ Opens SpellsEvents t data

/-- The files that are read. -/
theorem decode_eq_ok_iff (bytes : Bytes) (t : Trace) :
    decode bytes = .ok t ↔
      SpellsFile t bytes ∧ t.length ≤ maxEvents ∧ t.map (·.index) = List.range t.length := by
  constructor
  · intro h
    obtain ⟨header, data, hpresents⟩ := exists_presents_of_decode h
    cases hread : readHeader header with
    | error fault => simp [hpresents.decode_eq_error hread] at h
    | ok result =>
      obtain ⟨hd, rest⟩ := result
      rw [hpresents.decode_eq hread] at h
      obtain ⟨rfl, hevents, hchecks⟩ := (decodeEvents_eq_ok_iff hd data t).1 h
      exact ⟨⟨header, data, hpresents, (decides_header.opens_iff _ _).2 ⟨rest, hread⟩, hevents⟩,
        hchecks⟩
  · rintro ⟨⟨header, data, hpresents, hheader, hevents⟩, hchecks⟩
    obtain ⟨rest, hread⟩ := (decides_header.opens_iff _ _).1 hheader
    rw [hpresents.decode_eq hread]
    exact (decodeEvents_eq_ok_iff _ data t).2 ⟨rfl, hevents, hchecks⟩

theorem length_headerBytes (count : Nat) (checksum : Digest) :
    (headerBytes count checksum).length = 37 + (number count).length := by
  simp only [headerBytes, mark, List.length_append, List.length_cons, List.length_nil,
    Digest.length_toList]
  omega

theorem length_headerBytes_le {count : Nat} (h : count < 2 ^ 64) (checksum : Digest) :
    (headerBytes count checksum).length ≤ 47 := by
  have hnumber : (number count).length ≤ 10 := length_number_le (by omega)
  rw [length_headerBytes]
  omega

theorem presents_encode {t : Trace} (hlength : t.length < 2 ^ 64) :
    Presents (encode t) (headerBytes t.length (digestOf (eventsBytes t))) (eventsBytes t) := by
  have hle := length_headerBytes_le hlength (digestOf (eventsBytes t))
  exact ⟨by omega, rfl⟩

/-- The file that is written is the one shortest file of its trace. -/
theorem shortest_encode {t : Trace} (hlength : t.length < 2 ^ 64) (h : ∀ e ∈ t, Storable e) :
    Shortest SpellsFile t (encode t) := by
  have hevents := shortest_events hlength h
  have hwritten := presents_encode hlength
  refine ⟨⟨_, _, hwritten, ⟨_, (shortest_header hlength _).spells, List.prefix_rfl⟩,
    ⟨_, hevents.spells, List.prefix_rfl⟩⟩, ?_⟩
  rintro bytes ⟨header, data, hpresents, ⟨front, hfront, hstart⟩, ⟨front', hfront', hstart'⟩⟩
  have hdata := (hevents.sameOrLonger hfront').extend hstart'
  have hheader := ((shortest_header hlength data).sameOrLonger hfront).extend hstart
  have hlengths : (headerBytes t.length (digestOf data)).length =
      (headerBytes t.length (digestOf (eventsBytes t))).length := by
    rw [length_headerBytes, length_headerBytes]
  rw [hpresents.bytes_eq, hwritten.bytes_eq]
  rcases hdata with rfl | hlonger
  · -- the digest is the one that is written, so the header is known as well
    rcases hheader with rfl | hlonger
    · exact .refl _
    · right
      simp only [List.length_append, lengthBytes, List.length_cons, List.length_nil]
      omega
  · right
    have hle := hheader.length_le
    simp only [List.length_append, lengthBytes, List.length_cons, List.length_nil]
    omega

theorem SpellsFile.storable {t : Trace} {bytes : Bytes} (h : SpellsFile t bytes) :
    ∀ e ∈ t, Storable e := by
  obtain ⟨header, data, -, -, front, hevents, -⟩ := h
  exact hevents.storable

/-- A file is read as a trace exactly when it is in the format, the events are not too many and they
are numbered from zero without gaps. The trace is then read from the file that is written for it as
well, and that file is the only one of its length: every other is longer. -/
theorem decode_accepts_iff (bytes : Bytes) (t : Trace) :
    (decode bytes = .ok t ↔
      SpellsFile t bytes ∧ t.length ≤ maxEvents ∧ t.map (·.index) = List.range t.length) ∧
    (decode bytes = .ok t →
      decode (encode t) = .ok t ∧ (bytes = encode t ∨ (encode t).length < bytes.length)) := by
  refine ⟨decode_eq_ok_iff bytes t, fun h => ?_⟩
  obtain ⟨hspells, hcount, hindices⟩ := (decode_eq_ok_iff bytes t).1 h
  have hlength : t.length < 2 ^ 64 := by
    rw [maxEvents] at hcount
    omega
  have hstorable := hspells.storable
  have hwritten := shortest_encode hlength hstorable
  exact ⟨(decode_eq_ok_iff _ t).2 ⟨hwritten.spells, hcount, hindices⟩,
    hwritten.sameOrLonger hspells⟩

/-- A byte after the events of the empty trace. -/
theorem decode_accepts_iff_trailing :
    let data : Bytes := [0, 7]
    let bytes := lengthBytes 38 ++ (headerBytes 0 (digestOf data) ++ data)
    decode bytes = .ok [] ∧ decode (encode []) = .ok [] ∧ (encode []).length < bytes.length := by
  intro data bytes
  have hread : decode bytes = .ok [] := by decide +kernel
  obtain ⟨hagain, hbytes⟩ := (decode_accepts_iff bytes []).2 hread
  refine ⟨hread, hagain, hbytes.resolve_left fun heq => ?_⟩
  have hlength : bytes.length = (encode []).length := by rw [heq]
  revert hlength
  decide +kernel

/-- A file that is read although it is not the one that is written: every number in it has a group
of zeros more than it needs, and either section has a byte after what is read. -/
theorem decode_padded :
    let d : Digest := ⟨Vector.replicate 32 0⟩
    let t : Trace := [⟨0, d, d, some "a"⟩]
    let data : Bytes := 0x81 :: 0x00 :: 0x80 :: 0x00 ::
      (d.toList ++ (d.toList ++ [0x01, 0x81, 0x00, 0x61, 0xff]))
    let header : Bytes := mark ++ (version :: 0x81 :: 0x00 :: ((digestOf data).toList ++ [0xff]))
    let bytes := lengthBytes header.length ++ (header ++ data)
    decode bytes = .ok t ∧ decode (encode t) = .ok t ∧ encode t ≠ bytes := by
  decide +kernel

end Trace

end TreeReduction
