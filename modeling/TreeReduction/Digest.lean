import TreeReduction.Digest.Blake3

set_option autoImplicit false

/-!
# Digests

The identity of a piece of content: the BLAKE3 hash of its bytes. A digest is written in
lowercase hexadecimal, whole (`Digest.hex`) or as its first eight bytes (`Digest.short`).
-/

namespace TreeReduction

/-- The lowercase hexadecimal digit of a number below sixteen. -/
def hexDigit (n : Nat) : Char :=
  if n < 10 then Char.ofNat ('0'.toNat + n) else Char.ofNat ('a'.toNat + (n - 10))

/-- The two hexadecimal digits of a byte. -/
def hexByte (b : UInt8) : List Char :=
  [hexDigit (b.toNat / 16), hexDigit (b.toNat % 16)]

/-- Bytes in hexadecimal, two digits each. -/
def hexText (bytes : List UInt8) : String :=
  String.ofList (bytes.flatMap hexByte)

/-- A hash of 32 bytes. -/
structure Digest where
  bytes : Vector UInt8 32
  deriving DecidableEq

namespace Digest

/-- The digest that a list of bytes spells out, if it holds exactly 32. -/
def ofBytes? (bytes : List UInt8) : Option Digest :=
  if h : bytes.length = 32 then some ⟨⟨bytes.toArray, by simpa using h⟩⟩ else none

/-- The BLAKE3 digest of some content. -/
def ofContent (content : ByteArray) : Digest :=
  let h := Blake3.hash content
  ⟨⟨h.bytes.toArray, by simpa using h.length_bytes⟩⟩

/-- The BLAKE3 digest of a text, taken over its UTF-8 bytes. -/
def ofText (text : String) : Digest :=
  ofContent text.toUTF8

/-- The 32 bytes in order. -/
def toList (d : Digest) : List UInt8 :=
  d.bytes.toList

/-- All 64 hexadecimal digits. -/
def hex (d : Digest) : String :=
  hexText d.toList

/-- The first 16 hexadecimal digits, enough to tell values apart in a log. -/
def short (d : Digest) : String :=
  hexText (d.toList.take 8)

/-- How a digest is shown inside a message. -/
def label (d : Digest) : String :=
  "ValueHash(" ++ d.short ++ ")"

@[simp]
theorem length_toList (d : Digest) : d.toList.length = 32 := by
  simp [toList]

theorem ofBytes?_toList (d : Digest) : ofBytes? d.toList = some d := by
  obtain ⟨⟨a, h⟩⟩ := d
  simp [ofBytes?, toList, h]

end Digest

end TreeReduction
