set_option autoImplicit false

/-!
# BLAKE3

The BLAKE3 hash of a byte sequence, unkeyed and with the 32-byte output.

Input is cut into chunks of 1024 bytes and a chunk into blocks of 64. A chunk is hashed by
compressing its blocks one after the other into a chaining value; two neighbouring subtrees are
joined by compressing the pair of their chaining values. The left subtree of an inner node holds
the largest power of two of whole chunks that leaves the right one nonempty, which is the shape that
`leftLength` fixes and on which the recursion of `chain` runs.
-/

namespace TreeReduction.Blake3

/-- A chaining value: eight words. -/
structure Words8 where
  h0 : UInt32
  h1 : UInt32
  h2 : UInt32
  h3 : UInt32
  h4 : UInt32
  h5 : UInt32
  h6 : UInt32
  h7 : UInt32
  deriving DecidableEq, Inhabited

/-- A message block, or the working state of a compression: sixteen words. -/
structure Words16 where
  w0 : UInt32
  w1 : UInt32
  w2 : UInt32
  w3 : UInt32
  w4 : UInt32
  w5 : UInt32
  w6 : UInt32
  w7 : UInt32
  w8 : UInt32
  w9 : UInt32
  w10 : UInt32
  w11 : UInt32
  w12 : UInt32
  w13 : UInt32
  w14 : UInt32
  w15 : UInt32
  deriving DecidableEq, Inhabited

/-- The initial chaining value of every chunk of an unkeyed hash. -/
def initial : Words8 where
  h0 := 0x6A09E667
  h1 := 0xBB67AE85
  h2 := 0x3C6EF372
  h3 := 0xA54FF53A
  h4 := 0x510E527F
  h5 := 0x9B05688C
  h6 := 0x1F83D9AB
  h7 := 0x5BE0CD19

/-- The bytes in one chunk. -/
def chunkLength : Nat := 1024

/-- The bytes in one block. -/
def blockLength : Nat := 64

/-- Domain flag of the first block of a chunk. -/
def chunkStart : UInt32 := 1

/-- Domain flag of the last block of a chunk. -/
def chunkEnd : UInt32 := 2

/-- Domain flag of a block that joins two chaining values. -/
def parent : UInt32 := 4

/-- Domain flag of the one compression that yields the digest. -/
def root : UInt32 := 8

/-! ## Compression -/

/-- Rotation of a word to the right, for amounts between 1 and 31. -/
@[inline]
def rotateRight (x : UInt32) (n : UInt32) : UInt32 :=
  (x >>> n) ||| (x <<< (32 - n))

/-- Four words that a quarter round mixes. -/
structure Quad where
  a : UInt32
  b : UInt32
  c : UInt32
  d : UInt32

/-- The quarter round: mixes two message words into four words of the state. -/
@[inline]
def mix (a b c d x y : UInt32) : Quad :=
  let a := a + b + x
  let d := rotateRight (d ^^^ a) 16
  let c := c + d
  let b := rotateRight (b ^^^ c) 12
  let a := a + b + y
  let d := rotateRight (d ^^^ a) 8
  let c := c + d
  let b := rotateRight (b ^^^ c) 7
  ⟨a, b, c, d⟩

/-- One round: the four columns of the state, then its four diagonals. -/
def round (s m : Words16) : Words16 :=
  let p := mix s.w0 s.w4 s.w8 s.w12 m.w0 m.w1
  let q := mix s.w1 s.w5 s.w9 s.w13 m.w2 m.w3
  let r := mix s.w2 s.w6 s.w10 s.w14 m.w4 m.w5
  let t := mix s.w3 s.w7 s.w11 s.w15 m.w6 m.w7
  let e := mix p.a q.b r.c t.d m.w8 m.w9
  let f := mix q.a r.b t.c p.d m.w10 m.w11
  let g := mix r.a t.b p.c q.d m.w12 m.w13
  let h := mix t.a p.b q.c r.d m.w14 m.w15
  ⟨e.a, f.a, g.a, h.a, h.b, e.b, f.b, g.b, g.c, h.c, e.c, f.c, f.d, g.d, h.d, e.d⟩

/-- The order in which the next round reads the message words. -/
def permute (m : Words16) : Words16 :=
  ⟨m.w2, m.w6, m.w3, m.w10, m.w7, m.w0, m.w4, m.w13,
   m.w1, m.w11, m.w12, m.w5, m.w9, m.w14, m.w15, m.w8⟩

/-- The given number of rounds, the message permuted between two of them. -/
def rounds : Nat → Words16 → Words16 → Words16
  | 0, s, _ => s
  | n + 1, s, m => rounds n (round s m) (permute m)

/-- Seven rounds on a block, the two halves of the state folded together. The 64-bit counter and
the number of block bytes enter the state beside the domain flags. -/
def compress (h : Words8) (m : Words16) (counter : UInt64) (length flags : UInt32) : Words8 :=
  let s := rounds 7
    ⟨h.h0, h.h1, h.h2, h.h3, h.h4, h.h5, h.h6, h.h7,
     initial.h0, initial.h1, initial.h2, initial.h3,
     counter.toUInt32, (counter >>> 32).toUInt32, length, flags⟩ m
  ⟨s.w0 ^^^ s.w8, s.w1 ^^^ s.w9, s.w2 ^^^ s.w10, s.w3 ^^^ s.w11,
   s.w4 ^^^ s.w12, s.w5 ^^^ s.w13, s.w6 ^^^ s.w14, s.w7 ^^^ s.w15⟩

/-! ## Blocks and chunks -/

/-- The byte at a position, zero from the end of the input on. -/
@[inline]
def byteAt (data : ByteArray) (i : Nat) : UInt32 :=
  if h : i < data.size then (data[i]).toUInt32 else 0

/-- The little-endian word at a position, padded with zero bytes. -/
@[inline]
def wordAt (data : ByteArray) (i : Nat) : UInt32 :=
  byteAt data i
    ||| (byteAt data (i + 1) <<< 8)
    ||| (byteAt data (i + 2) <<< 16)
    ||| (byteAt data (i + 3) <<< 24)

/-- The block that starts at a position, padded with zero bytes. Only the last block of the input
can be short, because every chunk but the last is full. -/
def blockAt (data : ByteArray) (i : Nat) : Words16 :=
  ⟨wordAt data i, wordAt data (i + 4), wordAt data (i + 8), wordAt data (i + 12),
   wordAt data (i + 16), wordAt data (i + 20), wordAt data (i + 24), wordAt data (i + 28),
   wordAt data (i + 32), wordAt data (i + 36), wordAt data (i + 40), wordAt data (i + 44),
   wordAt data (i + 48), wordAt data (i + 52), wordAt data (i + 56), wordAt data (i + 60)⟩

/-- Chains the blocks of a chunk from position `start` on. The last block, which may be short or
empty, carries the end flag and the flags given for it. -/
def chainBlocks (data : ByteArray) (counter : UInt64) (last : UInt32) (h : Words8) (flag : UInt32)
    (start stop : Nat) : Words8 :=
  if stop ≤ start + blockLength then
    compress h (blockAt data start) counter (stop - start).toUInt32 (flag ||| chunkEnd ||| last)
  else
    chainBlocks data counter last
      (compress h (blockAt data start) counter blockLength.toUInt32 flag) 0
      (start + blockLength) stop
  termination_by stop - start
  decreasing_by simp only [blockLength] at *; omega

/-- The block that joins two chaining values. -/
def joined (l r : Words8) : Words16 :=
  ⟨l.h0, l.h1, l.h2, l.h3, l.h4, l.h5, l.h6, l.h7,
   r.h0, r.h1, r.h2, r.h3, r.h4, r.h5, r.h6, r.h7⟩

/-- The bytes of the left subtree over `n` bytes: the largest power of two of chunks that leaves
at least one byte on the right. -/
def leftLength (n : Nat) : Nat :=
  chunkLength * Nat.pow 2 ((n - 1) / chunkLength).log2

theorem leftLength_pos (n : Nat) : 0 < leftLength n :=
  Nat.mul_pos (by decide) (Nat.two_pow_pos _)

/-- More than one chunk is split into two nonempty parts. -/
theorem leftLength_lt {n : Nat} (h : chunkLength < n) : leftLength n < n := by
  have hq : (n - 1) / chunkLength ≠ 0 := by
    have : 1 ≤ (n - 1) / chunkLength :=
      (Nat.le_div_iff_mul_le (by decide)).2 (by simp only [chunkLength] at *; omega)
    omega
  have hp := Nat.log2_self_le hq
  have hm : chunkLength * ((n - 1) / chunkLength) ≤ n - 1 := Nat.mul_div_le _ _
  have hl : leftLength n ≤ chunkLength * ((n - 1) / chunkLength) := Nat.mul_le_mul_left _ hp
  simp only [chunkLength] at *
  omega

/-- The chaining value of the bytes from `start` to `stop`, the first of which belongs to chunk
number `counter`; the last compression carries the extra flags `last`. -/
def chain (data : ByteArray) (counter : Nat) (last : UInt32) (start stop : Nat) : Words8 :=
  if chunkLength < stop - start then
    let k := leftLength (stop - start)
    let l := chain data counter 0 start (start + k)
    let r := chain data (counter + k / chunkLength) 0 (start + k) stop
    compress initial (joined l r) 0 blockLength.toUInt32 (parent ||| last)
  else
    chainBlocks data counter.toUInt64 last initial chunkStart start stop
  termination_by stop - start
  decreasing_by
    · have := @leftLength_lt (stop - start) (by assumption)
      omega
    · have := leftLength_pos (stop - start)
      omega

/-- The four bytes of a word, least significant first. -/
def wordBytes (w : UInt32) : List UInt8 :=
  [w.toUInt8, (w >>> 8).toUInt8, (w >>> 16).toUInt8, (w >>> 24).toUInt8]

/-- The bytes of a chaining value. -/
def Words8.bytes (h : Words8) : List UInt8 :=
  wordBytes h.h0 ++ wordBytes h.h1 ++ wordBytes h.h2 ++ wordBytes h.h3
    ++ wordBytes h.h4 ++ wordBytes h.h5 ++ wordBytes h.h6 ++ wordBytes h.h7

theorem Words8.length_bytes (h : Words8) : h.bytes.length = 32 := by
  simp [Words8.bytes, wordBytes]

/-- The hash of a byte sequence: the chaining value of its root. -/
def hash (data : ByteArray) : Words8 :=
  chain data 0 root 0 data.size

end TreeReduction.Blake3
