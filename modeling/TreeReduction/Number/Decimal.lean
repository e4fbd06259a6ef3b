import TreeReduction.Number.Binary64

set_option autoImplicit false

/-!
# Decimal text of binary64 numbers

`Binary64.shortest` finds the fewest decimal digits that still round back to a number, and of those
the ones nearest to it. The search is on exact naturals: for one digit, two digits and so on it
looks at the two points of that decimal grid which enclose the number, and takes the first grid that
has a point inside the interval of reals rounding to the number. The ends of that interval belong to
it when the significand is even.

`Binary64.ofDecimal` reads a decimal back, and `Binary64.text` fixes where the point and the
exponent stand.
-/

namespace TreeReduction

/-- A positive decimal: the number whose digits stand after the point, times `10 ^ point`. -/
structure Decimal where
  digits : List Char
  point : Int
  deriving DecidableEq

namespace Decimal

/-- Zeros in a row. -/
def zeros (n : Nat) : List Char :=
  List.replicate n '0'

/-- Digits with their decimal point, positional while the point stands between five places before
the digits and the sixteenth place, and with a signed exponent otherwise. -/
def layout (d : Decimal) : List Char :=
  let n := d.digits.length
  if 0 < d.point ∧ d.point ≤ 16 then
    let k := d.point.toNat
    if n ≤ k then d.digits ++ zeros (k - n) ++ ['.', '0']
    else d.digits.take k ++ '.' :: d.digits.drop k
  else if -5 < d.point ∧ d.point ≤ 0 then
    '0' :: '.' :: (zeros (-d.point).toNat ++ d.digits)
  else
    let e := d.point - 1
    let sign := if e < 0 then '-' else '+'
    let mantissa :=
      match d.digits with
      | c :: r@(_ :: _) => c :: '.' :: r
      | single => single
    mantissa ++ 'e' :: sign :: Nat.toDigits 10 e.natAbs

end Decimal

namespace Binary64

/-- The number of decimal digits of a natural. -/
def digitCount (n : Nat) : Nat :=
  (Nat.toDigits 10 n).length

/-- The `k` with `10 ^ (k - 1) ≤ num / den < 10 ^ k`, for positive `num` and `den`. -/
def decimalPoint (num den : Nat) : Int :=
  if den ≤ num then digitCount (num / den)
  else
    let c := digitCount (den / num)
    if den = num * Nat.pow 10 (c - 1) then 2 - (c : Int) else 1 - (c : Int)

/-- The real numbers that round to a given one, in quarters of a unit of its significand. -/
structure Neighbourhood where
  low : Nat
  centre : Nat
  high : Nat
  /-- Whether `low` and `high` themselves round to the number. -/
  closed : Bool

/-- The neighbourhood of a positive finite number. Below a power of two its numbers stand twice
as dense, so the lower half is half as wide there. -/
def neighbourhood (x : Binary64) : Neighbourhood :=
  let m := x.significand
  let dense := x.fractionField = 0 ∧ 1 < x.exponentField
  ⟨if dense then 4 * m - 1 else 4 * m - 2, 4 * m, 4 * m + 2, m % 2 = 0⟩

/-- Whether `d / den` lies in the neighbourhood whose quarters are `num` each. -/
def Neighbourhood.holds (n : Neighbourhood) (num : Nat) (d : Nat) : Bool :=
  if n.closed then n.low * num ≤ d && d ≤ n.high * num
  else n.low * num < d && d < n.high * num

/-- The point of the grid `10 ^ e` that reads back as the number and is nearest to it, an exact
tie going to the even digit. -/
def gridPoint? (n : Neighbourhood) (q e : Int) : Option Nat :=
  let num := Nat.pow 2 q.toNat * Nat.pow 10 (-e).toNat
  let den := Nat.pow 2 (-q).toNat * Nat.pow 10 e.toNat
  let below := n.centre * num / den
  let above := below + 1
  match n.holds num (below * den), n.holds num (above * den) with
  | false, false => none
  | true, false => some below
  | false, true => some above
  | true, true =>
    let down := n.centre * num - below * den
    let up := above * den - n.centre * num
    if down < up then some below
    else if up < down then some above
    else if below % 2 = 0 then some below else some above

/-- Drops the zeros at the end of a digit string. -/
def dropTrailingZeros (digits : List Char) : List Char :=
  (digits.reverse.dropWhile (· == '0')).reverse

/-- Searches the grids of `n`, `n + 1`, … digits, `fuel` of them. -/
def searchGrids (nb : Neighbourhood) (q point : Int) : Nat → Nat → Decimal
  | 0, _ => ⟨[], 0⟩
  | fuel + 1, n =>
    match gridPoint? nb q (point - n) with
    | some d =>
      let digits := Nat.toDigits 10 d
      ⟨dropTrailingZeros digits, point - n + digits.length⟩
    | none => searchGrids nb q point fuel (n + 1)

/-- The shortest decimal that reads back as a positive finite number. Seventeen digits always do. -/
def shortest (x : Binary64) : Decimal :=
  let q := x.scale - 2
  let nb := x.neighbourhood
  let point := decimalPoint (nb.centre * Nat.pow 2 q.toNat) (Nat.pow 2 (-q).toNat)
  searchGrids nb q point 17 1

/-- The text of a finite number: its sign, then zero or its shortest digits. -/
def finiteText (x : Binary64) : String :=
  let body := if x.significand = 0 then ['0', '.', '0'] else x.shortest.layout
  String.ofList (if x.isNegative then '-' :: body else body)

/-- The text of any number; the infinities and NaN have names. -/
def text (x : Binary64) : String :=
  if x.isFinite then x.finiteText
  else if x.isNaN then "NaN"
  else if x.isNegative then "-inf"
  else "inf"

/-- The number nearest to `digits · 10 ^ exponent`. A decimal point more than 310 places to the
right of the digits is above every finite number, and one more than 330 places to their left
rounds to zero, which keeps the exact arithmetic small. -/
def ofDecimal (negative : Bool) (digits : Nat) (exponent : Int) : Binary64 :=
  if digits = 0 then zero negative
  else
    let point : Int := digitCount digits + exponent
    if 310 < point then infinity negative
    else if point < -330 then zero negative
    else ofRatio negative (digits * Nat.pow 10 exponent.toNat) (Nat.pow 10 (-exponent).toNat)

end Binary64

end TreeReduction
