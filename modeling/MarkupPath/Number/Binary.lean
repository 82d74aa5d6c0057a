/-!
# Binary floating point as exact numbers

A finite double is a sign and an exact product `significand * 2 ^ exponent`. `Binary.ofFloat?` reads
that product off the bits of a double, and `ofRatio` goes back: it is the double nearest to a
quotient of natural numbers, of two equally near ones the one with the even significand. `remainder`
is the remainder of a division truncated toward zero, computed on the exact products.
-/

set_option autoImplicit false

namespace MarkupPath.Number

/-- The exact value `significand * 2 ^ exponent`, negated when `negative` holds. -/
structure Binary where
  negative : Bool
  significand : Nat
  exponent : Int
  deriving DecidableEq, Repr

/-- Least exponent of a double's significand, that of the subnormal numbers. -/
def minExponent : Int := -1074

/-- Weight of the implicit leading bit of a significand, `2 ^ 52`. -/
def leadingBit : Nat := 0x10000000000000

/-- Weight of the lowest exponent bit in the encoding of a double. -/
def exponentUnit : Nat := 0x10000000000000

/-- Weight of the sign bit in the encoding of a double. -/
def signBit : Nat := 0x8000000000000000

/-- Encoding of positive infinity; finite doubles of that sign have smaller ones. -/
def infinityBits : Nat := 0x7FF0000000000000

/-- Exact value of a finite double, and `none` for infinities and NaN. -/
def Binary.ofFloat? (x : Float) : Option Binary :=
  let bits := x.toBits.toNat
  let magnitude := bits % signBit
  let negative := bits ≥ signBit
  if magnitude ≥ infinityBits then none
  else if magnitude < leadingBit then some ⟨negative, magnitude, minExponent⟩
  else
    some ⟨negative, leadingBit + magnitude % leadingBit,
      minExponent + (magnitude / exponentUnit : Nat) - 1⟩

/-- `base ^ exponent` for a natural exponent and `1` for a negative one, so that the quotient
`raise base e / raise base (-e)` is the power for every integer `e`. -/
def raise (base : Nat) (exponent : Int) : Nat := Nat.pow base exponent.toNat

/-- The quotient rounded to a natural number, a half to the even neighbour. -/
def roundDiv (num den : Nat) : Nat :=
  let quotient := num / den
  let rest := 2 * (num % den)
  if rest > den || (rest == den && quotient % 2 == 1) then quotient + 1 else quotient

/-- The greatest integer `k` with `2 ^ k ≤ num / den`, for positive arguments. -/
def floorLog2 (num den : Nat) : Int :=
  let k : Int := (num.log2 : Int) - den.log2
  if den * raise 2 k ≤ num * raise 2 (-k) then k else k - 1

/-- Encoding of the nonnegative double nearest to `num / den`. Rounding up to the next power of two
carries into the exponent bits, and everything past the finite doubles is infinity. -/
def nearestBits (num den : Nat) : Nat :=
  if num = 0 then 0
  else
    let exponent := max (floorLog2 num den - 52) minExponent
    let significand := roundDiv (num * raise 2 (-exponent)) (den * raise 2 exponent)
    if significand < leadingBit then significand
    else
      -- the exponent field of a normal number counts from one, and a carry raises it
      min infinityBits
        (((exponent - minExponent).toNat + 1) * exponentUnit + (significand - leadingBit))

/-- The double nearest to `num / den`, of two equally near ones the even one. -/
def ofRatio (num den : Nat) : Float :=
  Float.ofBits (nearestBits num den).toUInt64

/-- Positive infinity. -/
def infinity : Float := Float.ofBits infinityBits.toUInt64

/-- The quiet NaN. -/
def notANumber : Float := 0.0 / 0.0

/-- The double with the given exact value, rounded to the nearest one if there is none. -/
def Binary.toFloat (b : Binary) : Float :=
  let size := ofRatio (b.significand * raise 2 b.exponent) (raise 2 (-b.exponent))
  if b.negative then -size else size

/-- Remainder of `x / y` with the quotient truncated toward zero: it has the sign of `x`, zero
included, and is exact. An infinite `x` and a zero `y` have none. -/
def remainder (x y : Float) : Float :=
  match Binary.ofFloat? x, Binary.ofFloat? y with
  | some a, some b =>
      if b.significand = 0 then notANumber
      else
        let low := min a.exponent b.exponent
        let whole := a.significand * raise 2 (a.exponent - low)
        let part := b.significand * raise 2 (b.exponent - low)
        Binary.toFloat ⟨a.negative, whole % part, low⟩
  | some _, none => if y.isNaN then notANumber else x
  | none, _ => notANumber

end MarkupPath.Number
