import TreeReduction.Trace
import TreeReduction.Trace.Wire

set_option autoImplicit false

/-!
# Binary traces

The binary form of a trace: four bytes that give the length of a header, the header, and the events.
The header holds a mark, a version, the number of events and the digest of their bytes.

`Trace.decode` checks all of that, the digest before the events are read and their indices last:
they have to count up from zero.
-/

namespace TreeReduction.Trace

open Wire (Bytes Reader)

/-- The mark that a header starts with. -/
def mark : Bytes := [0x4D, 0x55, 0x54, 0x52]

/-- The version that is written and read. -/
def version : UInt8 := 1

/-- The most events that are read. -/
def maxEvents : Nat := 1000000

/-- Why bytes are no trace. -/
inductive DecodeFault where
  /-- not even the length of a header -/
  | tooShort
  /-- fewer bytes than the header should have -/
  | headerCut
  /-- the header cannot be read -/
  | header (fault : Wire.Fault)
  | badMark
  | badVersion
  | tooManyEvents (count : Nat)
  | checksumMismatch
  /-- the events cannot be read -/
  | events (fault : Wire.Fault)
  | countMismatch
  | outOfSequence (index expected : Nat)
  deriving DecidableEq

/-- The wording of a fault. -/
def DecodeFault.message : DecodeFault → String
  | .tooShort => "Data too short"
  | .headerCut => "Data too short for header"
  | .header fault => "Header: " ++ fault.message
  | .badMark => "Invalid file format"
  | .badVersion => "Unsupported file version"
  | .tooManyEvents count => s!"Event count {count} exceeds maximum allowed {maxEvents}"
  | .checksumMismatch => "Checksum mismatch"
  | .events fault => "Data: " ++ fault.message
  | .countMismatch => "Event count mismatch"
  | .outOfSequence index expected => s!"Event index {index} out of sequence, expected {expected}"

/-! ## Writing -/

/-- The bytes of an event. -/
def eventBytes (e : TraceEvent) : Bytes :=
  Wire.number e.index ++ (e.before.toList ++ (e.after.toList ++ Wire.optionalText e.projection))

/-- The bytes of all events, behind their number. -/
def eventsBytes (t : Trace) : Bytes :=
  Wire.number t.length ++ t.flatMap eventBytes

/-- The digest of some bytes. -/
def digestOf (bytes : Bytes) : Digest :=
  Digest.ofContent ⟨bytes.toArray⟩

/-- The bytes of a header. -/
def headerBytes (count : Nat) (checksum : Digest) : Bytes :=
  mark ++ (version :: (Wire.number count ++ checksum.toList))

/-- A length in four bytes, the lowest first. -/
def lengthBytes (n : Nat) : Bytes :=
  [n.toUInt8, (n / Nat.pow 2 8).toUInt8, (n / Nat.pow 2 16).toUInt8, (n / Nat.pow 2 24).toUInt8]

/-- The binary form of a trace. -/
def encode (t : Trace) : Bytes :=
  let events := eventsBytes t
  let header := headerBytes t.length (digestOf events)
  lengthBytes header.length ++ (header ++ events)

/-! ## Reading -/

/-- Reads a digest. -/
def readDigest : Reader Digest := fun bytes =>
  match Wire.readBytes 32 bytes with
  | .error e => .error e
  | .ok (bs, rest) =>
    match Digest.ofBytes? bs with
    | some d => .ok (d, rest)
    | none => .error .ended

/-- Reads an event. -/
def readEvent : Reader TraceEvent := fun bytes => do
  let (index, bytes) ← Wire.readNumber bytes
  let (before, bytes) ← readDigest bytes
  let (after, bytes) ← readDigest bytes
  let (projection, bytes) ← Wire.readOptionalText bytes
  return (⟨index, before, after, projection⟩, bytes)

/-- Reads all events. -/
def readEvents : Reader Trace := fun bytes => do
  let (count, bytes) ← Wire.readNumber bytes
  Wire.readMany readEvent count bytes

/-- What a header says. -/
structure Header where
  mark : Bytes
  version : Bytes
  count : Nat
  checksum : Digest

/-- Reads a header. -/
def readHeader : Reader Header := fun bytes => do
  let (mark, bytes) ← Wire.readBytes 4 bytes
  let (version, bytes) ← Wire.readBytes 1 bytes
  let (count, bytes) ← Wire.readNumber bytes
  let (checksum, bytes) ← readDigest bytes
  return (⟨mark, version, count, checksum⟩, bytes)

/-- Checks that indices count up from `expected`. -/
def checkIndices : (expected : Nat) → Trace → Except DecodeFault Unit
  | _, [] => .ok ()
  | expected, e :: rest =>
    if e.index = expected then checkIndices (expected + 1) rest
    else .error (.outOfSequence e.index expected)

/-- The trace that a header and the bytes behind it stand for. -/
def decodeEvents (header : Header) (bytes : Bytes) : Except DecodeFault Trace :=
  if header.mark ≠ mark then .error .badMark
  else if header.version ≠ [version] then .error .badVersion
  else if maxEvents < header.count then .error (.tooManyEvents header.count)
  else if digestOf bytes ≠ header.checksum then .error .checksumMismatch
  else
    match readEvents bytes with
    | .error fault => .error (.events fault)
    | .ok (t, _) =>
      if t.length ≠ header.count then .error .countMismatch
      else (checkIndices 0 t).map fun _ => t

/-- The trace that some bytes stand for. -/
def decode : Bytes → Except DecodeFault Trace
  | a :: b :: c :: d :: rest =>
    let length := a.toNat + Nat.pow 2 8 * b.toNat + Nat.pow 2 16 * c.toNat + Nat.pow 2 24 * d.toNat
    if rest.length < length then .error .headerCut
    else
      match readHeader (rest.take length) with
      | .error fault => .error (.header fault)
      | .ok (header, _) => decodeEvents header (rest.drop length)
  | _ => .error .tooShort

end TreeReduction.Trace
