set_option autoImplicit false

/-!
# Binary64 numbers

A floating-point number of 64 bits: a sign, an 11-bit exponent and a 52-bit fraction. Two numbers
are the same when their bits are, so `-0.0` differs from `0.0` and a NaN equals itself.

A finite number is `significand · 2 ^ scale` up to its sign. `Binary64.ofRatio` goes the other
way: it gives the number nearest to a quotient of naturals, a tie going to the even significand.
-/

namespace TreeReduction

/-- A floating-point number of 64 bits, by its bits. -/
structure Binary64 where
  bits : UInt64
  deriving DecidableEq, Inhabited

namespace Binary64

/-- The number of fraction bits. -/
def fractionBits : Nat := 52

/-- The exponent field of the infinities and NaNs. -/
def topExponent : Nat := 2047

/-- The scale of the smallest numbers: a unit of the significand is `2 ^ (-1074)`. -/
def leastScale : Int := -1074

/-- Whether the sign bit is set. -/
def isNegative (x : Binary64) : Bool :=
  Nat.pow 2 63 ≤ x.bits.toNat

/-- The exponent field. -/
def exponentField (x : Binary64) : Nat :=
  x.bits.toNat / Nat.pow 2 fractionBits % Nat.pow 2 11

/-- The fraction field. -/
def fractionField (x : Binary64) : Nat :=
  x.bits.toNat % Nat.pow 2 fractionBits

/-- Neither an infinity nor a NaN. -/
def isFinite (x : Binary64) : Bool :=
  x.exponentField != topExponent

/-- Not a number at all. -/
def isNaN (x : Binary64) : Bool :=
  x.exponentField == topExponent && x.fractionField != 0

/-- The significand of a finite number, with the leading bit that the fraction leaves out. -/
def significand (x : Binary64) : Nat :=
  if x.exponentField = 0 then x.fractionField else Nat.pow 2 fractionBits + x.fractionField

/-- The power of two that a unit of the significand stands for. -/
def scale (x : Binary64) : Int :=
  if x.exponentField = 0 then leastScale else x.exponentField - 1075

/-- Assembles a number from its sign and the bits below it. -/
def ofFields (negative : Bool) (magnitude : Nat) : Binary64 :=
  ⟨UInt64.ofNat (if negative then Nat.pow 2 63 + magnitude else magnitude)⟩

/-- Positive or negative zero. -/
def zero (negative : Bool) : Binary64 :=
  ofFields negative 0

/-- Positive or negative infinity. -/
def infinity (negative : Bool) : Binary64 :=
  ofFields negative (topExponent * Nat.pow 2 fractionBits)

/-- The quiet NaN with no payload. -/
def nan : Binary64 :=
  ofFields false (topExponent * Nat.pow 2 fractionBits + Nat.pow 2 51)

/-- The natural nearest to a quotient, a tie going to the even one. -/
def roundQuotient (num den : Nat) : Nat :=
  let q := num / den
  let r := 2 * (num % den)
  if r < den then q
  else if den < r then q + 1
  else if q % 2 = 0 then q else q + 1

/-- The greatest `e` with `2 ^ e ≤ num / den`, for positive `num` and `den`. -/
def floorLog2 (num den : Nat) : Int :=
  let e : Int := (num.log2 : Int) - (den.log2 : Int)
  if num * Nat.pow 2 (-e).toNat < den * Nat.pow 2 e.toNat then e - 1 else e

/-- The number nearest to `num / den`, a tie going to the even significand and a quotient above
the finite numbers to infinity. -/
def ofRatio (negative : Bool) (num den : Nat) : Binary64 :=
  if num = 0 then zero negative
  else
    let q := max (floorLog2 num den - 52) leastScale
    let m := roundQuotient (num * Nat.pow 2 (-q).toNat) (den * Nat.pow 2 q.toNat)
    let magnitude :=
      if m < Nat.pow 2 fractionBits then m
      else (q + 1075).toNat * Nat.pow 2 fractionBits + (m - Nat.pow 2 fractionBits)
    if topExponent * Nat.pow 2 fractionBits ≤ magnitude then infinity negative
    else ofFields negative magnitude

end Binary64

end TreeReduction
