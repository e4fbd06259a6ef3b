set_option autoImplicit false

/-!
# Wire forms

Numbers, texts and options as bytes. A number is written in groups of seven bits, the lowest first,
each byte but the last with its top bit set; a text is the number of its bytes and its UTF-8 bytes;
an option is a zero byte, or a one byte and what it holds.

A reader takes a value from the front of some bytes and answers it with the bytes that are left.
Numbers are read in up to 64 bits, with or without groups of zeros at their end.
-/

namespace TreeReduction.Wire

/-- Bytes as lists, which readers can take apart. -/
abbrev Bytes : Type := List UInt8

/-- Why bytes could not be read. -/
inductive Fault where
  /-- the bytes end too early -/
  | ended
  /-- a number goes on for more than 64 bits -/
  | endless
  /-- an option starts with neither zero nor one -/
  | badOption
  /-- a text is not UTF-8 -/
  | badText
  deriving DecidableEq

/-- The wording of a fault. -/
def Fault.message : Fault → String
  | .ended => "Hit the end of buffer, expected more data"
  | .endless => "Found a varint that didn't terminate. Is the usize too big for this platform?"
  | .badOption => "Found an Option discriminant that wasn't 0 or 1"
  | .badText => "Tried to parse invalid utf-8"

/-- Takes a value from the front of some bytes. -/
abbrev Reader (α : Type) : Type := Bytes → Except Fault (α × Bytes)

/-! ## Numbers -/

/-- A number in groups of seven bits. -/
def number (n : Nat) : Bytes :=
  if n < 128 then [n.toUInt8] else (n % 128 + 128).toUInt8 :: number (n / 128)

/-- Reads a number of at most `bits` bits. -/
def readNumberWithin : (bits : Nat) → Reader Nat
  | _, [] => .error .ended
  | bits, b :: rest =>
    if b.toNat < 128 then
      if b.toNat < Nat.pow 2 bits then .ok (b.toNat, rest) else .error .endless
    else if 7 < bits then
      match readNumberWithin (bits - 7) rest with
      | .error e => .error e
      | .ok (n, rest) => .ok (128 * n + (b.toNat - 128), rest)
    else .error .endless

/-- Reads a number of at most 64 bits. -/
def readNumber : Reader Nat :=
  readNumberWithin 64

/-! ## Bytes and texts -/

/-- Takes `n` bytes. -/
def readBytes : (n : Nat) → Reader Bytes
  | 0, bytes => .ok ([], bytes)
  | _ + 1, [] => .error .ended
  | n + 1, b :: rest =>
    match readBytes n rest with
    | .error e => .error e
    | .ok (bs, rest) => .ok (b :: bs, rest)

/-- The UTF-8 bytes of a text. -/
def utf8 (s : String) : Bytes :=
  s.toUTF8.data.toList

/-- A text: the number of its bytes, then the bytes. -/
def text (s : String) : Bytes :=
  number s.utf8ByteSize ++ utf8 s

/-- Reads a text. -/
def readText : Reader String := fun bytes =>
  match readNumber bytes with
  | .error e => .error e
  | .ok (n, rest) =>
    match readBytes n rest with
    | .error e => .error e
    | .ok (bs, rest) =>
      match String.fromUTF8? ⟨bs.toArray⟩ with
      | some s => .ok (s, rest)
      | none => .error .badText

/-! ## Options and repetition -/

/-- An optional text. -/
def optionalText : Option String → Bytes
  | none => [0]
  | some s => 1 :: text s

/-- Reads an optional text. -/
def readOptionalText : Reader (Option String)
  | [] => .error .ended
  | b :: rest =>
    if b = 0 then .ok (none, rest)
    else if b = 1 then
      match readText rest with
      | .error e => .error e
      | .ok (s, rest) => .ok (some s, rest)
    else .error .badOption

/-- Reads `n` values one after the other. -/
def readMany {α : Type} (read : Reader α) : (n : Nat) → Reader (List α)
  | 0, bytes => .ok ([], bytes)
  | n + 1, bytes =>
    match read bytes with
    | .error e => .error e
    | .ok (a, rest) =>
      match readMany read n rest with
      | .error e => .error e
      | .ok (as, rest) => .ok (a :: as, rest)

end TreeReduction.Wire
