import MarkupPath.Number.Binary

/-!
# Decimal numbers

`Decimal` is the exact value `coefficient * 10 ^ exponent`. `Decimal.shortest` finds, for a positive
double, the decimal of fewest digits among those that read back as that double, and of those the one
nearest to it; an exact tie goes up. `Decimal.toFloat` reads a decimal as the nearest double, and
`Decimal.positional` writes one out without an exponent.
-/

set_option autoImplicit false

namespace MarkupPath.Number

/-- The exact value `coefficient * 10 ^ exponent`. -/
structure Decimal where
  coefficient : Nat
  exponent : Int
  deriving DecidableEq, Repr

namespace Decimal

/-! ## Reading as a double -/

/-- Number of decimal digits of a natural number, and `1` for zero. -/
def digitCount (n : Nat) : Nat := (Nat.toDigits 10 n).length

/-- The nearest double. A decimal whose digits all stand left of the 400th place is past every
finite double, and one whose digits all stand right of the 400th place rounds to zero, so neither
needs its power of ten. -/
def toFloat (d : Decimal) : Float :=
  if d.coefficient = 0 then 0.0
  else
    let top := (digitCount d.coefficient : Int) + d.exponent
    if top > 400 then infinity
    else if top < -400 then 0.0
    else ofRatio (d.coefficient * raise 10 d.exponent) (raise 10 (-d.exponent))

/-! ## Shortest digits of a double -/

/-- The reals that round to a positive double, all in quarters of its last binary place: the ends of
the interval, the double itself, and the unit as the quotient `scale / divisor`. The ends belong to
the interval when the significand is even. -/
structure Rounding where
  low : Nat
  value : Nat
  high : Nat
  closed : Bool
  scale : Nat
  divisor : Nat

/-- The interval that rounds to `significand * 2 ^ exponent`. Below a power of two the doubles are
half as far apart, so the interval reaches only half as far down. -/
def Rounding.of (significand : Nat) (exponent : Int) : Rounding :=
  let tight := significand == leadingBit && exponent > minExponent
  { low := 4 * significand - (if tight then 1 else 2)
    value := 4 * significand
    high := 4 * significand + 2
    closed := significand % 2 == 0
    scale := raise 2 (exponent - 2)
    divisor := raise 2 (2 - exponent) }

/-- The value `c * 10 ^ k` lies in the interval. -/
def Rounding.contains (r : Rounding) (c : Nat) (k : Int) : Bool :=
  let point := c * raise 10 k * r.divisor
  let unit := r.scale * raise 10 (-k)
  if r.closed then r.low * unit ≤ point && point ≤ r.high * unit
  else r.low * unit < point && point < r.high * unit

/-- The multiple of `10 ^ k` in the interval that is nearest to the double, if there is one. Only
the two neighbours of the double among these multiples can be nearest. -/
def Rounding.gridPoint? (r : Rounding) (k : Int) : Option Nat :=
  let unit := r.scale * raise 10 (-k)
  let step := raise 10 k * r.divisor
  let below := r.value * unit / step
  match r.contains below k, r.contains (below + 1) k with
  -- of two the nearer, and the upper one where both are equally near
  | true, true =>
      if 2 * (r.value * unit - below * step) < step then some below else some (below + 1)
  | true, false => some below
  | false, true => some (below + 1)
  | false, false => none

/-- The grid point of the coarsest of `fuel` grids of powers of ten, from `10 ^ k` downward, that
has one. -/
def Rounding.coarsest (r : Rounding) : Nat → Int → Decimal
  | 0, k => ⟨r.value * r.scale * raise 10 (-k) / (r.divisor * raise 10 k), k⟩
  | fuel + 1, k =>
      match r.gridPoint? k with
      | some c => ⟨c, k⟩
      | none => r.coarsest fuel (k - 1)

/-- The decimal of fewest digits that reads back as the positive double
`significand * 2 ^ exponent`. The search starts at a power of ten above the double; `2 ^ n` has at
most `30103 * n / 100000 + 1` digits. Seventeen digits always suffice. -/
def shortest (significand : Nat) (exponent : Int) : Decimal :=
  let top := (exponent + significand.log2 + 1) * 30103 / 100000 + 1
  (Rounding.of significand exponent).coarsest 20 top

/-! ## Writing -/

/-- All digits of the decimal in their places, without an exponent. -/
def positional (d : Decimal) : String :=
  let digits := Nat.toDigits 10 d.coefficient
  let places := (-d.exponent).toNat
  if places = 0 then String.ofList (digits ++ List.replicate d.exponent.toNat '0')
  else if digits.length ≤ places then
    String.ofList ('0' :: '.' :: List.replicate (places - digits.length) '0' ++ digits)
  else
    let whole := digits.length - places
    String.ofList (digits.take whole ++ '.' :: digits.drop whole)

end Decimal

end MarkupPath.Number
