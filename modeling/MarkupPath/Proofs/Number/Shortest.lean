import MarkupPath.Number.Decimal
import MarkupPath.Proofs.Number.Nearest

/-!
# The shortest decimal of a double

The interval in which `Decimal.shortest` looks for a decimal holds those that are rounded to the
double (`Rounding.of_contains_iff`). One of the twenty grids that it tries has a point there, since
the last one is fine enough for every double; so what it finds is read back as the double
(`toFloat_of_value_shortest`).
-/

set_option autoImplicit false

namespace MarkupPath.Number

/-- The exact value of a decimal. -/
def Decimal.value (d : Decimal) : ℚ := d.coefficient * 10 ^ d.exponent

namespace Decimal

variable {significand : Nat} {exponent : Int}

/-! ## The rounding interval -/

theorem raise_ten_div_raise (k : Int) : (raise 10 k : ℚ) / raise 10 (-k) = 10 ^ k := by
  exact_mod_cast raise_div_raise (by decide : 0 < 10) k

section

variable (a c : Nat) (k exponent : Int)

-- both sides of a comparison are whole multiples of one and the same unit

theorem cast_quarters : ((a * (raise 2 (exponent - 2) * raise 10 (-k)) : Nat) : ℚ) =
    a / 4 * 2 ^ exponent * (raise 2 (2 - exponent) * raise 10 (-k)) := by
  have hdown : (raise 2 (2 - exponent) : ℚ) ≠ 0 := by
    exact_mod_cast (raise_pos Nat.two_pos _).ne'
  have hraise := raise_two_div_raise (exponent - 2)
  rw [neg_sub, div_eq_iff hdown, zpow_sub₀ two_ne_zero] at hraise
  push_cast
  rw [hraise]
  ring

theorem cast_point : ((c * raise 10 k * raise 2 (2 - exponent) : Nat) : ℚ) =
    c * 10 ^ k * (raise 2 (2 - exponent) * raise 10 (-k)) := by
  have hdown : (raise 10 (-k) : ℚ) ≠ 0 := by exact_mod_cast (raise_pos (by decide) _).ne'
  have hraise := raise_ten_div_raise k
  rw [div_eq_iff hdown] at hraise
  push_cast
  rw [hraise]
  ring

theorem quarters_le_point_iff :
    a * (raise 2 (exponent - 2) * raise 10 (-k)) ≤ c * raise 10 k * raise 2 (2 - exponent) ↔
      (a : ℚ) / 4 ≤ c * 10 ^ k / 2 ^ exponent := by
  have hscale : (0 : ℚ) < raise 2 (2 - exponent) * raise 10 (-k) := by
    exact_mod_cast Nat.mul_pos (raise_pos Nat.two_pos _) (raise_pos (by decide) _)
  rw [← Nat.cast_le (α := ℚ), cast_quarters, cast_point, mul_le_mul_iff_left₀ hscale,
    le_div_iff₀ (by positivity)]

theorem point_le_quarters_iff :
    c * raise 10 k * raise 2 (2 - exponent) ≤ a * (raise 2 (exponent - 2) * raise 10 (-k)) ↔
      c * 10 ^ k / 2 ^ exponent ≤ (a : ℚ) / 4 := by
  have hscale : (0 : ℚ) < raise 2 (2 - exponent) * raise 10 (-k) := by
    exact_mod_cast Nat.mul_pos (raise_pos Nat.two_pos _) (raise_pos (by decide) _)
  rw [← Nat.cast_le (α := ℚ), cast_quarters, cast_point, mul_le_mul_iff_left₀ hscale,
    div_le_iff₀ (by positivity)]

theorem quarters_lt_point_iff :
    a * (raise 2 (exponent - 2) * raise 10 (-k)) < c * raise 10 k * raise 2 (2 - exponent) ↔
      (a : ℚ) / 4 < c * 10 ^ k / 2 ^ exponent :=
  lt_iff_lt_of_le_iff_le (point_le_quarters_iff a c k exponent)

theorem point_lt_quarters_iff :
    c * raise 10 k * raise 2 (2 - exponent) < a * (raise 2 (exponent - 2) * raise 10 (-k)) ↔
      c * 10 ^ k / 2 ^ exponent < (a : ℚ) / 4 :=
  lt_iff_lt_of_le_iff_le (quarters_le_point_iff a c k exponent)

end

/-- The ends belong to the interval if it is closed. -/
theorem Rounding.contains_iff (r : Rounding) (c : Nat) (k : Int) :
    r.contains c k = true ↔
      r.low * (r.scale * raise 10 (-k)) ≤ c * raise 10 k * r.divisor ∧
        c * raise 10 k * r.divisor ≤ r.high * (r.scale * raise 10 (-k)) ∧
        (r.closed = true ∨ r.low * (r.scale * raise 10 (-k)) < c * raise 10 k * r.divisor ∧
          c * raise 10 k * r.divisor < r.high * (r.scale * raise 10 (-k))) := by
  rw [Rounding.contains]
  cases r.closed with
  | true => simp
  | false =>
      simp only [Bool.false_eq_true, if_false, Bool.and_eq_true, decide_eq_true_eq, false_or]
      exact ⟨fun h => ⟨h.1.le, h.2.le, h⟩, fun h => h.2.2⟩

/-- The interval holds the decimals that are rounded to its double. -/
theorem Rounding.of_contains_iff (hpos : 0 < significand) (c : Nat) (k : Int) :
    (Rounding.of significand exponent).contains c k = true ↔
      RoundsTo significand exponent (c * 10 ^ k) := by
  have hhigh : ((Rounding.of significand exponent).high : ℚ) / 4 = significand + 1 / 2 := by
    simp only [Rounding.of]
    push_cast
    ring
  have hclosed : (Rounding.of significand exponent).closed = true ↔ significand % 2 = 0 := by
    simp [Rounding.of]
  have hquarters : (Rounding.of significand exponent).contains c k = true ↔
      ((Rounding.of significand exponent).low : ℚ) / 4 ≤ c * 10 ^ k / 2 ^ exponent ∧
        (c : ℚ) * 10 ^ k / 2 ^ exponent ≤ significand + 1 / 2 ∧
        (significand % 2 = 0 ∨
          ((Rounding.of significand exponent).low : ℚ) / 4 < c * 10 ^ k / 2 ^ exponent ∧
            (c : ℚ) * 10 ^ k / 2 ^ exponent < significand + 1 / 2) := by
    rw [Rounding.contains_iff, hclosed, ← hhigh, ← quarters_le_point_iff, ← point_le_quarters_iff,
      ← quarters_lt_point_iff, ← point_lt_quarters_iff]
    rfl
  rw [hquarters]
  by_cases htight : significand = leadingBit ∧ minExponent < exponent
  · -- below a power of two the interval reaches half as far, and its significand is even
    have hlow : ((Rounding.of significand exponent).low : ℚ) / 4 = significand - 1 / 4 := by
      simp [Rounding.of, htight, leadingBit]
      norm_num
    have heven : significand % 2 = 0 := by
      rw [htight.1]
      rfl
    rw [hlow]
    constructor
    · rintro ⟨hle, hge, -⟩
      exact ⟨⟨by linarith, hge, .inl heven⟩, fun _ _ => hle⟩
    · rintro ⟨⟨-, hge, -⟩, hle⟩
      exact ⟨hle htight.1 htight.2, hge, .inl heven⟩
  · have hlow : ((Rounding.of significand exponent).low : ℚ) / 4 = significand - 1 / 2 := by
      have hwide : ¬ (significand == leadingBit && decide (exponent > minExponent)) = true := by
        simpa using htight
      simp only [Rounding.of, if_neg hwide]
      rw [Nat.cast_sub (by omega)]
      push_cast
      ring
    rw [hlow]
    exact (and_iff_left fun heq hlt => absurd ⟨heq, hlt⟩ htight).symm

/-- What lies less than half a unit above the double is rounded to it. -/
theorem roundsTo_of_le {x : ℚ} (hlow : (significand : ℚ) ≤ x / 2 ^ exponent)
    (hhigh : x / 2 ^ exponent < significand + 1 / 2) : RoundsTo significand exponent x :=
  ⟨⟨by linarith, hhigh.le, .inr ⟨by linarith, hhigh⟩⟩, fun _ _ => by linarith⟩

/-! ## Grid points -/

/-- A point of the grid that is chosen rounds to the number. -/
theorem Rounding.contains_of_gridPoint? {r : Rounding} {k : Int} {c : Nat}
    (h : r.gridPoint? k = some c) : r.contains c k = true := by
  simp only [Rounding.gridPoint?] at h
  split at h
  · split at h <;> cases h <;> assumption
  · cases h
    assumption
  · cases h
    assumption
  · cases h

/-- The greatest multiple of `10 ^ k` that does not pass the double, in units of `10 ^ k`. -/
def Rounding.below (r : Rounding) (k : Int) : Nat :=
  r.value * (r.scale * raise 10 (-k)) / (raise 10 k * r.divisor)

/-- If one of the two neighbours rounds to the number, one is chosen. -/
theorem Rounding.exists_gridPoint? {r : Rounding} {k : Int}
    (h : r.contains (r.below k) k = true ∨ r.contains (r.below k + 1) k = true) :
    ∃ c, r.gridPoint? k = some c := by
  simp only [Rounding.below] at h
  simp only [Rounding.gridPoint?]
  split
  · split <;> exact ⟨_, rfl⟩
  · exact ⟨_, rfl⟩
  · exact ⟨_, rfl⟩
  · simp_all

section

variable (significand : Nat) (exponent k : Int)

theorem Rounding.below_le :
    ((Rounding.of significand exponent).below k : ℚ) * 10 ^ k / 2 ^ exponent ≤ significand := by
  -- the multiple is a quotient rounded down, in quarters of the last binary place
  have hmul := Nat.div_mul_le_self (4 * significand * (raise 2 (exponent - 2) * raise 10 (-k)))
    (raise 10 k * raise 2 (2 - exponent))
  rw [← Nat.mul_assoc, point_le_quarters_iff] at hmul
  push_cast at hmul
  rw [mul_div_cancel_left₀ _ four_ne_zero] at hmul
  exact hmul

theorem Rounding.lt_below_succ :
    (significand : ℚ) <
      ((Rounding.of significand exponent).below k + 1 : Nat) * 10 ^ k / 2 ^ exponent := by
  have hstep : 0 < raise 10 k * raise 2 (2 - exponent) :=
    Nat.mul_pos (raise_pos (by decide) _) (raise_pos Nat.two_pos _)
  have hmul : 4 * significand * (raise 2 (exponent - 2) * raise 10 (-k)) <
      ((Rounding.of significand exponent).below k + 1) * raise 10 k * raise 2 (2 - exponent) := by
    rw [Nat.mul_assoc (Rounding.below _ k + 1)]
    exact Nat.lt_mul_of_div_lt (Nat.lt_succ_self _) hstep
  rw [quarters_lt_point_iff, Nat.cast_mul, Nat.cast_ofNat,
    mul_div_cancel_left₀ _ four_ne_zero] at hmul
  exact hmul

end

/-- A grid that is at most half as wide as the last binary place has a point in the interval. -/
theorem exists_gridPoint? (hpos : 0 < significand) {k : Int}
    (hk : (10 : ℚ) ^ k ≤ 2 ^ (exponent - 1)) :
    ∃ c, (Rounding.of significand exponent).gridPoint? k = some c := by
  have hstep : (10 : ℚ) ^ k / 2 ^ exponent ≤ 1 / 2 := by
    rw [div_le_iff₀ (by positivity)]
    calc (10 : ℚ) ^ k ≤ 2 ^ (exponent - 1) := hk
      _ = 1 / 2 * 2 ^ exponent := by rw [zpow_sub_one₀ two_ne_zero]; ring
  have hle := Rounding.below_le significand exponent k
  have hlt := Rounding.lt_below_succ significand exponent k
  have hsucc (n : Nat) : ((n + 1 : Nat) : ℚ) * 10 ^ k / 2 ^ exponent =
      n * 10 ^ k / 2 ^ exponent + 10 ^ k / 2 ^ exponent := by
    push_cast
    ring
  rw [hsucc] at hlt
  -- the point above the double is near enough, unless the double itself lies on the grid
  apply Rounding.exists_gridPoint?
  rcases hle.eq_or_lt with heq | hless
  · exact .inl ((Rounding.of_contains_iff hpos _ _).2 (roundsTo_of_le heq.ge (by linarith)))
  · refine .inr ((Rounding.of_contains_iff hpos _ _).2 (roundsTo_of_le ?_ ?_)) <;> rw [hsucc]
    · exact hlt.le
    · linarith

/-- The search ends at a point of the interval if one of its grids has one. -/
theorem Rounding.contains_coarsest {r : Rounding} {fuel : Nat} {k : Int} {j : Nat} (hj : j < fuel)
    (hsome : ∃ c, r.gridPoint? (k - j) = some c) :
    r.contains (r.coarsest fuel k).coefficient (r.coarsest fuel k).exponent = true := by
  induction fuel generalizing k j with
  | zero => omega
  | succ fuel ih =>
      rw [Rounding.coarsest]
      cases hgrid : r.gridPoint? k with
      | some c => exact Rounding.contains_of_gridPoint? hgrid
      | none =>
          -- the grid that has a point is one of those still to come
          cases j with
          | zero => simp [hgrid] at hsome
          | succ j =>
              refine ih (k := k - 1) (j := j) (by omega) ?_
              rwa [show k - 1 - (j : Int) = k - (j + 1 : Nat) by push_cast; ring]

/-! ## The search -/

/-- Powers of ten and of two are compared by those of `10 ^ b` and `2 ^ a`. -/
theorem ten_zpow_le_of_pow {a b : Nat} {t n : Int} (hb : b ≠ 0)
    (hpow : ((10 : ℚ) ^ b) ^ t ≤ (2 ^ a) ^ t) (h : a * t ≤ n * b) : (10 : ℚ) ^ t ≤ 2 ^ n := by
  have hraised : ((10 : ℚ) ^ t) ^ b ≤ (2 ^ n) ^ b := by
    calc ((10 : ℚ) ^ t) ^ b = (10 ^ b) ^ t := by
          rw [← zpow_natCast, ← zpow_natCast, ← zpow_mul, ← zpow_mul, mul_comm]
      _ ≤ (2 ^ a) ^ t := hpow
      _ = 2 ^ (a * t) := by rw [← zpow_natCast, ← zpow_mul]
      _ ≤ 2 ^ (n * b) := zpow_le_zpow_right₀ one_le_two h
      _ = (2 ^ n) ^ b := by rw [zpow_mul, zpow_natCast]
  exact (pow_le_pow_iff_left₀ (by positivity) (by positivity) hb).1 hraised

/-- The estimate of a decimal logarithm is hardly too great for any double. -/
theorem ten_zpow_le {n t : Int} (h : 100000 * t ≤ 30103 * n) (hlow : -1100 ≤ n)
    (hhigh : n ≤ 1100) : (10 : ℚ) ^ t ≤ 2 ^ (n + 5) := by
  -- the two comparisons are close enough for exponents of this size, one for each sign
  rcases le_total 0 t with ht | ht
  · have hpow : ((10 : ℚ) ^ 3) ^ t ≤ (2 ^ 10) ^ t :=
      zpow_le_zpow_left₀ ht (by norm_num) (by norm_num)
    exact ten_zpow_le_of_pow (by decide) hpow (by push_cast; omega)
  · have hpow : ((10 : ℚ) ^ 28) ^ t ≤ (2 ^ 93) ^ t := by
      have hinv : ((2 : ℚ) ^ 93) ^ (-t) ≤ (10 ^ 28) ^ (-t) :=
        zpow_le_zpow_left₀ (by omega) (by norm_num) (by norm_num)
      rw [zpow_neg, zpow_neg] at hinv
      exact (inv_le_inv₀ (by positivity) (by positivity)).1 hinv
    exact ten_zpow_le_of_pow (by decide) hpow (by push_cast; omega)

/-- The search for the shortest decimal ends at one that is rounded to the double. -/
theorem contains_shortest (hparts : Representable significand exponent) (hpos : 0 < significand) :
    (Rounding.of significand exponent).contains (shortest significand exponent).coefficient
      (shortest significand exponent).exponent = true := by
  have hlog : significand.log2 < 53 := (Nat.log2_lt hpos.ne').2 hparts.lt
  obtain ⟨-, hleast, hgreatest, -⟩ := hparts
  simp only [minExponent] at hleast
  -- the last grid is fine enough: a significand has 53 bits, and `10 ^ 18` has more than 59
  apply Rounding.contains_coarsest (j := 19) (by decide)
  apply exists_gridPoint? hpos
  generalize ht : (exponent + significand.log2 + 1) * 30103 / 100000 = t
  have hten : (10 : ℚ) ^ t ≤ 2 ^ (exponent + 58) := by
    have hestimate : (10 : ℚ) ^ t ≤ 2 ^ (exponent + significand.log2 + 1 + 5) :=
      ten_zpow_le (by omega) (by omega) (by omega)
    exact hestimate.trans (zpow_le_zpow_right₀ one_le_two (by omega))
  calc (10 : ℚ) ^ (t + 1 - (19 : Nat)) = 10 ^ t * 10 ^ (-18 : Int) := by
        rw [← zpow_add₀ (by norm_num)]
        congr 1
        push_cast
        ring
    _ ≤ 2 ^ (exponent + 58) * 2 ^ (-59 : Int) := by
        gcongr
        norm_num
    _ = 2 ^ (exponent - 1) := by
        rw [← zpow_add₀ two_ne_zero]
        congr 1
        ring

/-! ## Reading decimals -/

/-- The count of digits is the exponent of the next power of ten. -/
theorem digitCount_spec {n : Nat} (h : n ≠ 0) :
    10 ^ (digitCount n - 1) ≤ n ∧ n < 10 ^ digitCount n := by
  have hpos : 0 < digitCount n := Nat.length_toDigits_pos
  have hbound {k : Nat} (hk : 0 < k) : digitCount n ≤ k ↔ n < 10 ^ k :=
    Nat.length_toDigits_le_iff (by decide) hk
  refine ⟨?_, (hbound hpos).1 le_rfl⟩
  by_cases hone : digitCount n - 1 = 0
  · rw [hone]
    exact Nat.one_le_iff_ne_zero.2 h
  · refine not_lt.1 fun hlt => ?_
    have := (hbound (Nat.pos_of_ne_zero hone)).2 hlt
    omega

/-- A decimal stands between two powers of ten, by its digits and its exponent. -/
theorem value_bounds (d : Decimal) (h : d.coefficient ≠ 0) :
    (10 : ℚ) ^ (digitCount d.coefficient + d.exponent - 1) ≤ d.value ∧
      d.value < 10 ^ (digitCount d.coefficient + d.exponent) := by
  have hten : (10 : ℚ) ≠ 0 := by norm_num
  obtain ⟨hlow, hhigh⟩ := digitCount_spec h
  have hpos : 0 < digitCount d.coefficient := Nat.length_toDigits_pos
  have hlow' : (10 : ℚ) ^ ((digitCount d.coefficient : Int) - 1) ≤ d.coefficient := by
    rw [← Nat.cast_pred hpos, zpow_natCast]
    exact_mod_cast hlow
  have hhigh' : (d.coefficient : ℚ) < 10 ^ (digitCount d.coefficient : Int) := by
    exact_mod_cast hhigh
  constructor
  · calc (10 : ℚ) ^ ((digitCount d.coefficient : Int) + d.exponent - 1) =
          10 ^ ((digitCount d.coefficient : Int) - 1) * 10 ^ d.exponent := by
            rw [← zpow_add₀ hten]
            congr 1
            ring
      _ ≤ d.value := by rw [value]; gcongr
  · rw [zpow_add₀ hten, value]
    gcongr

/-- A decimal is read as the double that its value is rounded to. -/
theorem toFloat_of_roundsTo {d : Decimal} (hparts : Representable significand exponent)
    (hpos : 0 < significand) (h : RoundsTo significand exponent d.value) :
    d.toFloat = Float.ofBits (encoding significand exponent).toUInt64 := by
  obtain ⟨hlower, hupper⟩ := h.bounds hparts hpos
  have hcoefficient : d.coefficient ≠ 0 := by
    intro hzero
    have : d.value = 0 := by rw [value, hzero, Nat.cast_zero, zero_mul]
    rw [this] at hlower
    exact absurd hlower (not_le.2 (by positivity))
  -- neither of the two shortcuts is taken
  obtain ⟨hdigits, hdigits'⟩ := value_bounds d hcoefficient
  have htop : ¬ (digitCount d.coefficient : Int) + d.exponent > 400 := by
    intro hgt
    have hle : (10 : ℚ) ^ (400 : Int) ≤ 2 ^ (1024 : Int) :=
      (zpow_le_zpow_right₀ (by norm_num) (by omega)).trans (hdigits.trans hupper)
    have hlt : 2 ^ 1024 < 10 ^ 400 := by decide +kernel
    exact absurd hlt (not_lt.2 (by exact_mod_cast hle))
  have hbottom : ¬ (digitCount d.coefficient : Int) + d.exponent < -400 := by
    intro hlt
    have hle : (2 : ℚ) ^ (-1075 : Int) < 10 ^ (-401 : Int) :=
      (hlower.trans_lt hdigits').trans_le (zpow_le_zpow_right₀ (by norm_num) (by omega))
    rw [zpow_neg, zpow_neg, inv_lt_inv₀ (by positivity) (by positivity)] at hle
    have hlt : 2 ^ 1075 < 10 ^ 401 := by decide +kernel
    exact absurd hlt (not_lt.2 (by exact_mod_cast hle.le))
  have hquotient : ((d.coefficient * raise 10 d.exponent : Nat) : ℚ) /
      (raise 10 (-d.exponent) : Nat) = d.value := by
    rw [Nat.cast_mul, mul_div_assoc, raise_ten_div_raise, value]
  have hnearest := nearestBits_eq_encoding
    (Nat.mul_pos (Nat.pos_of_ne_zero hcoefficient) (raise_pos (by decide) d.exponent))
    (raise_pos (by decide) (-d.exponent)) hparts (hquotient ▸ h)
  simp only [toFloat, if_neg hcoefficient, if_neg htop, if_neg hbottom, ofRatio, hnearest]

/-- What has the value of the shortest decimal of a positive double is read as this double. -/
theorem toFloat_of_value_shortest (hparts : Representable significand exponent)
    (hpos : 0 < significand) {d : Decimal} (hd : d.value = (shortest significand exponent).value) :
    d.toFloat = Float.ofBits (encoding significand exponent).toUInt64 := by
  apply toFloat_of_roundsTo hparts hpos
  rw [hd]
  exact (Rounding.of_contains_iff hpos _ _).1 (contains_shortest hparts hpos)

end Decimal

end MarkupPath.Number
