import MarkupPath.Number.Text
import MarkupPath.Proofs.Number.Bits

/-!
# No text writes a NaN

The number that a text starts with is an infinity, a literal or no number at all. A literal is read
as a rounded quotient, whose bits lie at most at those of infinity, and possibly negated; neither
gives a NaN (`isNaN_of_leading?`).
-/

set_option autoImplicit false

namespace MarkupPath.Number

open Float.Model (Format UnpackedFloat)
open Float.Model.UnpackedFloat

/-! ## Negation -/

/-- Only what is no number is packed as a NaN: an infinity has an empty mantissa, and everything
else has an exponent below the greatest. -/
theorem eq_notANumber_of_pack {u : UnpackedFloat}
    (h : pack Format.binary64 u = packedNaN Format.binary64) : u = UnpackedFloat.notANumber := by
  have hinfinity : ∀ s, packedInfinity Format.binary64 s ≠ packedNaN Format.binary64 := by decide
  have hexponent : ∀ {s e m}, packComponents Format.binary64 s e m = packedNaN Format.binary64 →
      e = -1 := by
    intro s e m heq
    have hsame := congrArg unpackExponent heq
    rwa [packedNaN, unpackExponent_packComponents, unpackExponent_packComponents] at hsame
  cases u with
  | notANumber => rfl
  | infinity s => exact absurd h (hinfinity s)
  | zero s => exact absurd (hexponent h) (by decide)
  | finite s m e hm =>
    simp only [pack] at h
    split at h
    · exact absurd h (hinfinity s)
    · next hsmall =>
      split at h
      · -- the exponent fits below the greatest one
        have hbits := congrArg BitVec.toNat (hexponent h)
        rw [BitVec.toNat_ofNat, Nat.mod_eq_of_lt (Nat.lt_of_succ_lt (Nat.not_le.1 hsmall))] at hbits
        rw [hbits] at hsmall
        exact absurd (by decide) hsmall
      · exact absurd (hexponent h) (by decide)

theorem isNaN_neg {x : Float} (h : x.isNaN = false) : (-x).isNaN = false := by
  refine Bool.eq_false_iff.2 fun hneg => Bool.eq_false_iff.1 h ?_
  have hpack := eq_notANumber_of_pack ((isNaN_unpack_iff_of_valid valid_pack).1 hneg)
  change x.toModel.unpack.isNaN = true
  rw [isNaN_iff]
  cases hu : x.toModel.unpack with
  | notANumber => rfl
  | infinity s => simp [hu, UnpackedFloat.neg] at hpack
  | zero s => simp [hu, UnpackedFloat.neg] at hpack
  | finite s m e hm => simp [hu, UnpackedFloat.neg] at hpack

/-! ## Rounded quotients -/

theorem isNaN_ofBits {bits : UInt64} (h : bits.toNat % signBit ≤ infinityBits) :
    (Float.ofBits bits).isNaN = false := by
  rw [Float.isNaN_eq_decide_eq_nan, decide_eq_false_iff_not]
  intro heq
  rw [← toBits_ofBits h, heq] at h
  exact absurd h (by decide)

theorem isNaN_ofRatio (num den : Nat) : (ofRatio num den).isNaN = false := by
  apply isNaN_ofBits
  have hle := nearestBits_le num den
  rw [Nat.toUInt64_eq, UInt64.toNat_ofNat']
  exact (Nat.mod_le _ _).trans ((Nat.mod_le _ _).trans hle)

theorem isNaN_toFloat (d : Decimal) : d.toFloat.isNaN = false := by
  have hzero : (0.0 : Float).isNaN = false := by decide
  simp only [Decimal.toFloat]
  split
  · exact hzero
  · split
    · exact isNaN_ofBits (by decide)
    · split
      · exact hzero
      · exact isNaN_ofRatio _ _

/-! ## Numbers at the start of texts -/

theorem isNaN_signed {x : Float} (negative : Bool) (h : x.isNaN = false) :
    (if negative then -x else x).isNaN = false := by
  cases negative with
  | true => exact isNaN_neg h
  | false => exact h

theorem isNaN_of_ofLiteral? {text : List Char} {x : Float} (h : ofLiteral? text = some x) :
    x.isNaN = false := by
  simp only [ofLiteral?] at h
  split at h
  · cases h
  · split at h
    · cases h
      exact isNaN_signed _ (isNaN_toFloat _)
    · cases h

/-- The number that a text starts with is no NaN. -/
theorem isNaN_of_leading? {text : List Char} {x : Float} (h : leading? text = some x) :
    x.isNaN = false := by
  simp only [leading?] at h
  split at h
  · cases h
    exact isNaN_signed _ (isNaN_ofBits (by decide))
  · split at h
    · exact isNaN_of_ofLiteral? h
    · cases h

end MarkupPath.Number
