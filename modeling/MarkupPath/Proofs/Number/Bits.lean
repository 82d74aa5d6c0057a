import MarkupPath.Number.Binary
import Mathlib

/-!
# The bits of a double

`ofFloat?_eq_some` relates the exact value of a finite double to its bits: they are `encoding` of
the significand and the exponent, below the sign, and without a sign the double is the one with
these bits (`eq_ofBits_encoding`). `nearestBits` is such an encoding too, or that of infinity.
-/

set_option autoImplicit false

namespace MarkupPath.Number

open Float.Model (Format)
open Float.Model.UnpackedFloat

/-! ## Bits and doubles -/

section

variable (bits : BitVec Format.binary64.numBits)

theorem toNat_unpackExponent : (unpackExponent bits).toNat = bits.toNat / 2 ^ 52 % 2 ^ 11 := by
  simp [unpackExponent, Nat.shiftRight_eq_div_pow]

theorem toNat_unpackMantissa : (unpackMantissa bits).toNat = bits.toNat % 2 ^ 52 := by
  simp [unpackMantissa, Nat.shiftRight_eq_div_pow]

end

/-- Bits that are not those of a NaN belong to a double. -/
theorem toBits_ofBits {bits : UInt64} (h : bits.toNat % signBit ≤ infinityBits) :
    (Float.ofBits bits).toBits = bits := by
  have hvalid : Format.binary64.Valid bits.toBitVec := by
    -- with the greatest exponent only infinity is not beyond the bound
    refine ⟨fun hexponent hmantissa => absurd ?_ hmantissa⟩
    have hmax : bits.toNat / 2 ^ 52 % 2 ^ 11 = 2047 := by
      rw [← UInt64.toNat_toBitVec, ← toNat_unpackExponent, hexponent]
      rfl
    apply BitVec.eq_of_toNat_eq
    rw [toNat_unpackMantissa]
    simp only [signBit, infinityBits] at h
    change bits.toNat % 2 ^ 52 = 0
    omega
  have hpack : pack Format.binary64 (unpack Format.binary64 bits.toBitVec) = bits.toBitVec :=
    pack_unpack_of_valid hvalid
  simp only [Float.toBits, Float.ofBits, Float.Model.ofBits, Float.Model.pack, hpack]

/-! ## Finite doubles -/

/-- A finite double has this significand and this exponent. -/
structure Representable (significand : Nat) (exponent : Int) : Prop where
  lt : significand < 2 * leadingBit
  least : minExponent ≤ exponent
  greatest : exponent ≤ 971
  subnormal : significand < leadingBit → exponent = minExponent

/-- The bits of the nonnegative double with this significand and this exponent. -/
def encoding (significand : Nat) (exponent : Int) : Nat :=
  if significand < leadingBit then significand
  else ((exponent - minExponent).toNat + 1) * exponentUnit + (significand - leadingBit)

variable {significand : Nat} {exponent : Int}

theorem Representable.encoding_lt (h : Representable significand exponent) :
    encoding significand exponent < infinityBits := by
  obtain ⟨hlt, hleast, hgreatest, -⟩ := h
  by_cases hsubnormal : significand < leadingBit
  · rw [encoding, if_pos hsubnormal]
    exact Nat.lt_trans hsubnormal (by decide)
  · rw [encoding, if_neg hsubnormal]
    simp only [leadingBit, minExponent, exponentUnit, infinityBits] at *
    omega

/-- A significand that was rounded up to twice the leading bit carries into the exponent. -/
theorem encoding_carry (h : minExponent < exponent) :
    encoding (2 * leadingBit) (exponent - 1) = encoding leadingBit exponent := by
  rw [encoding, encoding, if_neg (by decide), if_neg (by decide)]
  simp only [minExponent, leadingBit, exponentUnit] at *
  omega

/-- The bits of a normal number are the encoding of its parts. -/
theorem representable_of_bits {magnitude : Nat} (hfinite : magnitude < infinityBits)
    (hnormal : leadingBit ≤ magnitude) :
    Representable (leadingBit + magnitude % leadingBit)
        (minExponent + (magnitude / exponentUnit : Nat) - 1) ∧
      encoding (leadingBit + magnitude % leadingBit)
        (minExponent + (magnitude / exponentUnit : Nat) - 1) = magnitude := by
  rw [encoding, if_neg (by omega)]
  simp only [infinityBits, leadingBit] at hfinite hnormal
  refine ⟨⟨?_, ?_, ?_, ?_⟩, ?_⟩
  all_goals
    simp only [leadingBit, minExponent, exponentUnit]
    omega

theorem ofFloat?_eq_some {x : Float} {b : Binary} (h : Binary.ofFloat? x = some b) :
    Representable b.significand b.exponent ∧
      encoding b.significand b.exponent = x.toBits.toNat % signBit ∧
      b.negative = decide (signBit ≤ x.toBits.toNat) := by
  simp only [Binary.ofFloat?] at h
  split at h
  · cases h
  · next hfinite =>
      split at h
      · next hsubnormal =>
          cases h
          have hlt := Nat.lt_trans hsubnormal (by decide : leadingBit < 2 * leadingBit)
          have hgreatest : minExponent ≤ 971 := by decide
          exact ⟨⟨hlt, Int.le_refl _, hgreatest, fun _ => rfl⟩, if_pos hsubnormal, rfl⟩
      · next hnormal =>
          cases h
          obtain ⟨hparts, hencoding⟩ :=
            representable_of_bits (Nat.not_le.1 hfinite) (Nat.not_lt.1 hnormal)
          exact ⟨hparts, hencoding, rfl⟩

/-- A finite double without a sign is the one that its exact value encodes. -/
theorem eq_ofBits_encoding {x : Float} {b : Binary} (h : Binary.ofFloat? x = some b)
    (hsign : b.negative = false) :
    x = Float.ofBits (encoding b.significand b.exponent).toUInt64 := by
  obtain ⟨-, hencoding, hnegative⟩ := ofFloat?_eq_some h
  rw [hsign] at hnegative
  rw [hencoding, Nat.mod_eq_of_lt (Nat.not_le.1 (of_decide_eq_false hnegative.symm))]
  simp

/-- A finite double equals itself. -/
theorem beq_self_of_ofFloat? {x : Float} {b : Binary} (h : Binary.ofFloat? x = some b) :
    (x == x) = true := by
  rw [Float.beq_self_iff]
  rintro rfl
  have hnan : Binary.ofFloat? Float.nan = none := by decide
  rw [hnan] at h
  cases h

/-! ## The nearest double -/

/-- The nearest double encodes the rounded significand, unless that is too great. -/
theorem nearestBits_eq {num den : Nat} (hnum : num ≠ 0) :
    let exponent := max (floorLog2 num den - 52) minExponent
    nearestBits num den = min infinityBits
      (encoding (roundDiv (num * raise 2 (-exponent)) (den * raise 2 exponent)) exponent) := by
  simp only [nearestBits, if_neg hnum, encoding]
  split
  · next hsubnormal =>
      rw [Nat.min_eq_right]
      exact Nat.le_of_lt (Nat.lt_trans hsubnormal (by decide))
  · rfl

theorem nearestBits_le (num den : Nat) : nearestBits num den ≤ infinityBits := by
  by_cases hnum : num = 0
  · simp [nearestBits, hnum]
  · rw [nearestBits_eq hnum]
    exact Nat.min_le_left _ _

end MarkupPath.Number
