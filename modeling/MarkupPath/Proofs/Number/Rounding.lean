import MarkupPath.Proofs.Number.Shortest

/-!
# Every decimal is read as the nearest double

A rational number that is not negative is rounded to zero, to a positive finite double or to
infinity (`NearestDouble`): zero and infinity take what lies within half a unit of their neighbours,
and the middle, since their neighbours are odd. Every quotient and every decimal is read as the
double that it is rounded to (`nearest_ofRatio`, `Decimal.nearest_toFloat`).
-/

set_option autoImplicit false

namespace MarkupPath.Number

/-- The double that the value is rounded to. -/
inductive NearestDouble (x : ℚ) : Float → Prop where
  | zero (h : x ≤ 2 ^ (-1075 : Int)) : NearestDouble x 0.0
  | finite {significand : Nat} {exponent : Int} (hparts : Representable significand exponent)
      (hpos : 0 < significand) (h : RoundsTo significand exponent x) :
      NearestDouble x (Float.ofBits (encoding significand exponent).toUInt64)
  | infinite (h : (2 ^ 54 - 1) * 2 ^ (970 : Int) ≤ x) : NearestDouble x infinity

section

variable {x : ℚ} {log exponent : Int} {n : Nat}

/-- The unit in which a value is rounded leaves it 53 bits. -/
theorem div_unit_lt (hlog' : x < 2 ^ (log + 1)) :
    x / 2 ^ max (log - 52) minExponent < (2 * leadingBit : Nat) := by
  have hbit : ((2 * leadingBit : Nat) : ℚ) = 2 ^ (53 : Int) := by norm_num [leadingBit]
  rw [hbit, div_lt_iff₀ (by positivity), ← zpow_add₀ two_ne_zero]
  exact hlog'.trans_le (zpow_le_zpow_right₀ one_le_two (by omega))

/-- Above the least unit the value keeps its leading bit. -/
theorem le_div_unit (hlog : 2 ^ log ≤ x) (h : minExponent < max (log - 52) minExponent) :
    (leadingBit : ℚ) ≤ x / 2 ^ max (log - 52) minExponent := by
  have hbit : (leadingBit : ℚ) = 2 ^ (52 : Int) := by norm_num [leadingBit]
  rw [hbit, le_div_iff₀ (by positivity), ← zpow_add₀ two_ne_zero]
  exact le_trans (zpow_le_zpow_right₀ one_le_two (by omega)) hlog

/-- Past the greatest double the bits of a rounded value are those of infinity. -/
theorem infinityBits_le_encoding (hn : leadingBit ≤ n)
    (h : 971 < exponent ∨ exponent = 971 ∧ n = 2 * leadingBit) :
    infinityBits ≤ encoding n exponent := by
  rw [encoding, if_neg (Nat.not_lt.2 hn)]
  simp only [infinityBits, leadingBit, minExponent, exponentUnit] at *
  omega

theorem overflow_le : (2 ^ 54 - 1) * (2 : ℚ) ^ (970 : Int) ≤ 2 ^ (1024 : Int) := by
  calc (2 ^ 54 - 1) * (2 : ℚ) ^ (970 : Int) ≤ 2 ^ (54 : Int) * 2 ^ (970 : Int) := by
        gcongr
        norm_num
    _ = 2 ^ (1024 : Int) := by rw [← zpow_add₀ two_ne_zero]; rfl

/-- A rounded value that is too great for a double is past the middle above the greatest one. -/
theorem le_of_overflow (hlow : (n : ℚ) - 1 / 2 ≤ x / 2 ^ exponent)
    (hle : (leadingBit : ℚ) ≤ x / 2 ^ exponent)
    (h : 971 < exponent ∨ exponent = 971 ∧ n = 2 * leadingBit) :
    (2 ^ 54 - 1) * 2 ^ (970 : Int) ≤ x := by
  rcases h with h | ⟨rfl, rfl⟩
  · have hbit : (leadingBit : ℚ) = 2 ^ (52 : Int) := by norm_num [leadingBit]
    rw [hbit, le_div_iff₀ (by positivity), ← zpow_add₀ two_ne_zero] at hle
    calc (2 ^ 54 - 1) * (2 : ℚ) ^ (970 : Int) ≤ 2 ^ (1024 : Int) := overflow_le
      _ ≤ 2 ^ (52 + exponent) := zpow_le_zpow_right₀ one_le_two (by omega)
      _ ≤ x := hle
  · have hbit : ((2 * leadingBit : Nat) : ℚ) = 2 ^ 53 := by norm_num [leadingBit]
    rw [hbit, le_div_iff₀ (by positivity)] at hlow
    calc (2 ^ 54 - 1) * (2 : ℚ) ^ (970 : Int) = (2 ^ 53 - 1 / 2) * (2 ^ (970 : Int) * 2) := by ring
      _ = (2 ^ 53 - 1 / 2) * 2 ^ (971 : Int) := by rw [← zpow_add_one₀ two_ne_zero]; rfl
      _ ≤ x := hlow

/-- A value that is rounded up to twice the leading bit is rounded to the next power of two. -/
theorem roundsTo_carry (hlow : ((2 * leadingBit : Nat) : ℚ) - 1 / 2 ≤ x / 2 ^ exponent)
    (hlt : x / 2 ^ exponent < (2 * leadingBit : Nat)) : RoundsTo leadingBit (exponent + 1) x := by
  have hhalf : x / 2 ^ (exponent + 1) = x / 2 ^ exponent / 2 := by
    rw [zpow_add_one₀ two_ne_zero, div_mul_eq_div_div]
  push_cast at hlow hlt
  rw [RoundsTo, hhalf]
  exact ⟨⟨by linarith, by linarith, .inl (by decide)⟩, fun _ _ => by linarith⟩

/-- A value that is rounded in its unit is rounded to the double with these bits. -/
theorem nearestDouble_of_nearest (hlog : 2 ^ log ≤ x) (hlog' : x < 2 ^ (log + 1))
    (hn : Nearest (x / 2 ^ max (log - 52) minExponent) n) : NearestDouble x
      (Float.ofBits (min infinityBits (encoding n (max (log - 52) minExponent))).toUInt64) := by
  have hlt := div_unit_lt hlog'
  have hle := le_div_unit hlog
  have hleast : minExponent ≤ max (log - 52) minExponent := le_max_right _ _
  generalize max (log - 52) minExponent = exponent at *
  obtain ⟨hlow, hhigh, -⟩ := id hn
  have hn2 : n ≤ 2 * leadingBit := by
    have : (n : ℚ) < (2 * leadingBit : Nat) + 1 := by linarith
    exact Nat.lt_succ_iff.1 (by exact_mod_cast this)
  have hnormal : minExponent < exponent → leadingBit ≤ n := by
    intro hexponent
    have h := hle hexponent
    have : (leadingBit : ℚ) < n + 1 := by linarith
    exact Nat.lt_succ_iff.1 (by exact_mod_cast this)
  by_cases hover : 971 < exponent ∨ exponent = 971 ∧ n = 2 * leadingBit
  · have hexponent : minExponent < exponent := by
      simp only [minExponent]
      omega
    rw [min_eq_left (infinityBits_le_encoding (hnormal hexponent) hover)]
    exact .infinite (le_of_overflow hlow (hle hexponent) hover)
  by_cases hcarry : n = 2 * leadingBit
  · subst hcarry
    have hparts : Representable leadingBit (exponent + 1) :=
      ⟨by decide, by omega, by omega, fun h => absurd h (lt_irrefl _)⟩
    have hexponent : minExponent < exponent + 1 := by omega
    have hencoding := encoding_carry hexponent
    rw [add_sub_cancel_right] at hencoding
    rw [hencoding, min_eq_right hparts.encoding_lt.le]
    exact .finite hparts (by decide) (roundsTo_carry hlow hlt)
  have hparts : Representable n exponent :=
    ⟨by omega, hleast, by omega, fun h => by
      by_contra hne
      have := hnormal (by omega)
      omega⟩
  rw [min_eq_right hparts.encoding_lt.le]
  by_cases hzero : n = 0
  · -- at most half the least unit
    subst hzero
    have hbits : Float.ofBits (encoding 0 exponent).toUInt64 = 0.0 := by
      rw [encoding, if_pos (by decide)]
      decide
    rw [hparts.subnormal (by decide), minExponent, div_le_iff₀ (by positivity)] at hhigh
    rw [hbits]
    refine .zero ?_
    calc x ≤ (((0 : Nat) : ℚ) + 1 / 2) * 2 ^ (-1074 : Int) := hhigh
      _ = 2 ^ (-1074 - 1 : Int) := by
        rw [zpow_sub_one₀ two_ne_zero]
        ring
  · refine .finite hparts (Nat.pos_of_ne_zero hzero) ⟨hn, fun heq h => ?_⟩
    have := hle h
    rw [heq]
    linarith

end

/-- The double nearest to a quotient is the one that it is rounded to. -/
theorem nearest_ofRatio {num den : Nat} (hnum : 0 < num) (hden : 0 < den) :
    NearestDouble (num / den) (ofRatio num den) := by
  obtain ⟨hlog, hlog'⟩ := floorLog2_spec hnum hden
  rw [ofRatio, nearestBits_eq hnum.ne']
  exact nearestDouble_of_nearest hlog hlog' (nearest_scaled hden _)

/-- A decimal is read as the double that its value is rounded to. -/
theorem Decimal.nearest_toFloat (d : Decimal) : NearestDouble d.value d.toFloat := by
  by_cases hcoefficient : d.coefficient = 0
  · have hvalue : d.value = 0 := by rw [value, hcoefficient, Nat.cast_zero, zero_mul]
    rw [toFloat, if_pos hcoefficient, hvalue]
    exact .zero (by positivity)
  obtain ⟨hlow, hhigh⟩ := value_bounds d hcoefficient
  simp only [toFloat, if_neg hcoefficient]
  split
  · next htop =>
    refine .infinite ?_
    have hpower : 2 ^ 1024 ≤ 10 ^ 400 := by decide +kernel
    calc (2 ^ 54 - 1) * (2 : ℚ) ^ (970 : Int) ≤ 2 ^ (1024 : Int) := overflow_le
      _ ≤ 10 ^ (400 : Int) := by exact_mod_cast hpower
      _ ≤ 10 ^ ((digitCount d.coefficient : Int) + d.exponent - 1) :=
          zpow_le_zpow_right₀ (by norm_num) (by omega)
      _ ≤ d.value := hlow
  · split
    · next hbottom =>
      have hpower : 2 ^ 1075 ≤ 10 ^ 401 := by decide +kernel
      refine .zero (hhigh.le.trans ?_)
      calc (10 : ℚ) ^ ((digitCount d.coefficient : Int) + d.exponent) ≤ 10 ^ (-401 : Int) :=
            zpow_le_zpow_right₀ (by norm_num) (by omega)
        _ ≤ 2 ^ (-1075 : Int) := by
            rw [zpow_neg, zpow_neg, inv_le_inv₀ (by positivity) (by positivity)]
            exact_mod_cast hpower
    · have hquotient : ((d.coefficient * raise 10 d.exponent : Nat) : ℚ) /
          (raise 10 (-d.exponent) : Nat) = d.value := by
        rw [Nat.cast_mul, mul_div_assoc, raise_ten_div_raise, value]
      rw [← hquotient]
      exact nearest_ofRatio (Nat.mul_pos (Nat.pos_of_ne_zero hcoefficient)
        (raise_pos (by decide) _)) (raise_pos (by decide) _)

end MarkupPath.Number
