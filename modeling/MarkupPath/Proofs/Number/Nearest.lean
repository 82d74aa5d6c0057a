import MarkupPath.Proofs.Number.Bits

/-!
# Rounding to the nearest double

`RoundsTo` describes the rational numbers that are rounded to a finite double: those nearer to it
than to its neighbours, and the two in the middle if its significand is even. Every quotient among
them is rounded to that double by `nearestBits` (`nearestBits_eq_encoding`).
-/

set_option autoImplicit false

namespace MarkupPath.Number

/-! ## Powers as quotients -/

theorem raise_pos {base : Nat} (h : 0 < base) (e : Int) : 0 < raise base e := Nat.pow_pos h

/-- A power with an exponent of either sign, as a quotient of two natural numbers. -/
theorem raise_div_raise {base : Nat} (h : 0 < base) (e : Int) :
    (raise base e : ℚ) / raise base (-e) = (base : ℚ) ^ e := by
  have hbase : (base : ℚ) ≠ 0 := by exact_mod_cast h.ne'
  have hcast : ∀ k : Int, (raise base k : ℚ) = (base : ℚ) ^ (k.toNat : Int) := by
    intro k
    rw [raise, zpow_natCast]
    exact Nat.cast_pow base k.toNat
  rw [hcast, hcast, ← zpow_sub₀ hbase]
  congr 1
  omega

theorem raise_two_div_raise (e : Int) : (raise 2 e : ℚ) / raise 2 (-e) = 2 ^ e := by
  exact_mod_cast raise_div_raise Nat.two_pos e

/-! ## The binary logarithm -/

/-- The exponent of a quotient, from the lengths of the two numbers and one comparison. -/
theorem floorLog2_spec {num den : Nat} (hnum : 0 < num) (hden : 0 < den) :
    (2 : ℚ) ^ floorLog2 num den ≤ num / den ∧ (num : ℚ) / den < 2 ^ (floorLog2 num den + 1) := by
  have hden' : (0 : ℚ) < den := by exact_mod_cast hden
  have hnumLow : (2 : ℚ) ^ (num.log2 : Int) ≤ num := by
    exact_mod_cast Nat.log2_self_le hnum.ne'
  have hnumHigh : (num : ℚ) < 2 ^ ((num.log2 : Int) + 1) := by
    exact_mod_cast Nat.lt_log2_self (n := num)
  have hdenLow : (2 : ℚ) ^ (den.log2 : Int) ≤ den := by
    exact_mod_cast Nat.log2_self_le hden.ne'
  have hdenHigh : (den : ℚ) < 2 ^ ((den.log2 : Int) + 1) := by
    exact_mod_cast Nat.lt_log2_self (n := den)
  have hadd (a b : Int) : (2 : ℚ) ^ a * 2 ^ b = 2 ^ (a + b) := (zpow_add₀ two_ne_zero a b).symm
  -- the logarithms of both parts leave two candidates
  set k : Int := (num.log2 : Int) - den.log2 with hk
  have hlow : (2 : ℚ) ^ (k - 1) ≤ num / den := by
    rw [le_div_iff₀ hden']
    calc (2 : ℚ) ^ (k - 1) * den ≤ 2 ^ (k - 1) * 2 ^ ((den.log2 : Int) + 1) := by gcongr
      _ = 2 ^ (num.log2 : Int) := by rw [hadd]; congr 1; omega
      _ ≤ num := hnumLow
  have hhigh : (num : ℚ) / den < 2 ^ (k + 1) := by
    rw [div_lt_iff₀ hden']
    calc (num : ℚ) < 2 ^ ((num.log2 : Int) + 1) := hnumHigh
      _ = 2 ^ (k + 1) * 2 ^ (den.log2 : Int) := by rw [hadd]; congr 1; omega
      _ ≤ 2 ^ (k + 1) * den := by gcongr
  have htest : den * raise 2 k ≤ num * raise 2 (-k) ↔ (2 : ℚ) ^ k ≤ num / den := by
    have hraise : (0 : ℚ) < raise 2 (-k) := by exact_mod_cast raise_pos Nat.two_pos _
    rw [← raise_two_div_raise k, div_le_div_iff₀ hraise hden', ← Nat.cast_le (α := ℚ)]
    push_cast
    rw [mul_comm (den : ℚ)]
  simp only [floorLog2, ← hk]
  split
  · next hle => exact ⟨htest.1 hle, hhigh⟩
  · next hlt =>
      refine ⟨hlow, ?_⟩
      rw [sub_add_cancel]
      exact not_le.1 fun hle => hlt (htest.2 hle)

/-! ## Rounding to a natural number -/

/-- No natural number is nearer to the value than this one, and of two equally near ones this one is
even. -/
def Nearest (x : ℚ) (n : Nat) : Prop :=
  (n : ℚ) - 1 / 2 ≤ x ∧ x ≤ n + 1 / 2 ∧ (n % 2 = 0 ∨ (n : ℚ) - 1 / 2 < x ∧ x < n + 1 / 2)

namespace Nearest

variable {x : ℚ} {m n : Nat}

/-- There is one nearest number at most: of two, each is at most the other. -/
theorem le (hm : Nearest x m) (hn : Nearest x n) : m ≤ n := by
  obtain ⟨hlow, -, hmeven⟩ := hm
  obtain ⟨-, hhigh, hneven⟩ := hn
  have hsucc : m ≤ n + 1 := by
    have : (m : ℚ) ≤ n + 1 := by linarith
    exact_mod_cast this
  refine Nat.le_of_lt_succ (lt_of_le_of_ne hsucc ?_)
  -- the value would lie halfway between the two, and only one of them is even
  rintro rfl
  push_cast at hlow hmeven
  rcases hmeven with hmeven | ⟨hlow', -⟩
  · rcases hneven with hneven | ⟨-, hhigh'⟩
    · omega
    · linarith
  · linarith

theorem unique (hm : Nearest x m) (hn : Nearest x n) : m = n :=
  le_antisymm (hm.le hn) (hn.le hm)

end Nearest

/-- Division with remainder, rounded to the nearest and to even at a tie. -/
theorem nearest_roundDiv (num : Nat) {den : Nat} (hden : 0 < den) :
    Nearest (num / den) (roundDiv num den) := by
  have hden' : (0 : ℚ) < den := by exact_mod_cast hden
  have hvalue : (num : ℚ) / den = (num / den : Nat) + (num % den : Nat) / den := by
    field_simp
    exact_mod_cast (Nat.div_add_mod num den).symm
  have hpos : (0 : ℚ) ≤ (num % den : Nat) / den := by positivity
  have hone : ((num % den : Nat) : ℚ) / den < 1 := by
    rw [div_lt_one hden']
    exact_mod_cast Nat.mod_lt num hden
  have hhalf : ((num % den : Nat) : ℚ) / den = ((2 * (num % den) : Nat) : ℚ) / den / 2 := by
    push_cast
    ring
  have hsucc : ((num / den + 1 : Nat) : ℚ) = (num / den : Nat) + 1 := Nat.cast_succ _
  rw [hvalue, roundDiv]
  -- the rest of the division is compared with half the divisor, and a tie looks at the parity
  rcases lt_trichotomy (2 * (num % den)) den with hlt | heq | hgt
  · have hless : ((2 * (num % den) : Nat) : ℚ) / den < 1 := by
      rw [div_lt_one hden']
      exact_mod_cast hlt
    rw [if_neg (by simp; omega)]
    refine ⟨?_, ?_, .inr ⟨?_, ?_⟩⟩ <;> linarith
  · have hequal : ((2 * (num % den) : Nat) : ℚ) / den = 1 := by
      rw [heq, div_self hden'.ne']
    by_cases hodd : num / den % 2 = 1
    · rw [if_pos (by simp [heq, hodd])]
      refine ⟨?_, ?_, .inl (by omega)⟩ <;> linarith
    · rw [if_neg (by simp [heq, hodd])]
      refine ⟨?_, ?_, .inl (by omega)⟩ <;> linarith
  · have hmore : 1 < ((2 * (num % den) : Nat) : ℚ) / den := by
      rw [one_lt_div hden']
      exact_mod_cast hgt
    rw [if_pos (by simp [hgt])]
    refine ⟨?_, ?_, .inr ⟨?_, ?_⟩⟩ <;> linarith

/-! ## Rounding to a double -/

/-- The value is rounded to the double with this significand and this exponent. Below a power of two
the doubles are half as far apart. -/
def RoundsTo (significand : Nat) (exponent : Int) (x : ℚ) : Prop :=
  Nearest (x / 2 ^ exponent) significand ∧
    (significand = leadingBit → minExponent < exponent →
      (significand : ℚ) - 1 / 4 ≤ x / 2 ^ exponent)

variable {x : ℚ} {log exponent : Int} {significand n : Nat}

/-- What is rounded to a positive double lies between the least and the greatest ones. -/
theorem RoundsTo.bounds (h : RoundsTo significand exponent x)
    (hparts : Representable significand exponent) (hpos : 0 < significand) :
    (2 : ℚ) ^ (-1075 : Int) ≤ x ∧ x ≤ (2 : ℚ) ^ (1024 : Int) := by
  have hunit : (0 : ℚ) < 2 ^ exponent := by positivity
  have hone : (1 : ℚ) ≤ significand := by exact_mod_cast hpos
  have hbit : ((2 * leadingBit : Nat) : ℚ) = 2 ^ (53 : Int) := by norm_num [leadingBit]
  have hlt : (significand : ℚ) + 1 ≤ 2 ^ (53 : Int) := by
    rw [← hbit]
    exact_mod_cast hparts.lt
  obtain ⟨⟨hlow, hhigh, -⟩, -⟩ := h
  obtain ⟨-, hleast, hgreatest, -⟩ := hparts
  simp only [minExponent] at hleast
  rw [le_div_iff₀ hunit] at hlow
  rw [div_le_iff₀ hunit] at hhigh
  constructor
  · calc (2 : ℚ) ^ (-1075 : Int) ≤ 2 ^ (exponent - 1) := zpow_le_zpow_right₀ one_le_two (by omega)
      _ = 1 / 2 * 2 ^ exponent := by rw [zpow_sub_one₀ two_ne_zero]; ring
      _ ≤ (significand - 1 / 2) * 2 ^ exponent := by gcongr; linarith
      _ ≤ x := hlow
  · calc x ≤ (significand + 1 / 2) * 2 ^ exponent := hhigh
      _ ≤ 2 ^ (53 : Int) * 2 ^ exponent := by gcongr; linarith
      _ = 2 ^ (53 + exponent) := (zpow_add₀ two_ne_zero _ _).symm
      _ ≤ 2 ^ (1024 : Int) := zpow_le_zpow_right₀ one_le_two (by omega)

/-- The exponent of the significand that a value is rounded to. -/
theorem exponent_eq (hlog : 2 ^ log ≤ x) (hlog' : x < 2 ^ (log + 1))
    (hleast : minExponent ≤ exponent)
    (hlow : exponent = minExponent ∨ (leadingBit : ℚ) ≤ x / 2 ^ exponent)
    (hhigh : x / 2 ^ exponent < (2 * leadingBit : Nat)) :
    max (log - 52) minExponent = exponent := by
  have hunit : (0 : ℚ) < 2 ^ exponent := by positivity
  have hbit : (leadingBit : ℚ) = 2 ^ (52 : Int) := by norm_num [leadingBit]
  have hbit' : ((2 * leadingBit : Nat) : ℚ) = 2 ^ (53 : Int) := by norm_num [leadingBit]
  have hlt {a b : Int} (h : (2 : ℚ) ^ a < 2 ^ b) : a < b :=
    (zpow_lt_zpow_iff_right₀ one_lt_two).1 h
  have hupper : log < 53 + exponent := by
    rw [hbit', div_lt_iff₀ hunit, ← zpow_add₀ two_ne_zero] at hhigh
    exact hlt (hlog.trans_lt hhigh)
  -- a subnormal number has the least exponent, whatever the logarithm
  rcases hlow with hlow | hlow
  · omega
  · rw [hbit, le_div_iff₀ hunit, ← zpow_add₀ two_ne_zero] at hlow
    have hlower := hlt (hlow.trans_lt hlog')
    omega

/-- Rounded in the unit that its logarithm gives, the value becomes the significand, or carries. -/
theorem encoding_eq_of_roundsTo (hlog : 2 ^ log ≤ x) (hlog' : x < 2 ^ (log + 1))
    (hparts : Representable significand exponent) (h : RoundsTo significand exponent x)
    (hn : Nearest (x / 2 ^ max (log - 52) minExponent) n) :
    encoding n (max (log - 52) minExponent) = encoding significand exponent := by
  obtain ⟨hnearest, htight⟩ := h
  obtain ⟨hlow, hhigh, -⟩ := id hnearest
  have hsmall : (significand : ℚ) + 1 ≤ (2 * leadingBit : Nat) := by exact_mod_cast hparts.lt
  by_cases hbelow : exponent ≠ minExponent ∧ x / 2 ^ exponent < leadingBit
  · -- the value lies just below a power of two, and is rounded up to it
    obtain ⟨hne, hbelow⟩ := hbelow
    have hle : leadingBit ≤ significand := not_lt.1 fun hlt => hne (hparts.subnormal hlt)
    have hge : significand < leadingBit + 1 := by
      have : (significand : ℚ) < leadingBit + 1 := by linarith
      exact_mod_cast this
    obtain rfl : significand = leadingBit := by omega
    have hleast : minExponent < exponent := lt_of_le_of_ne hparts.least hne.symm
    have hquarter := htight rfl hleast
    have htwice : x / 2 ^ (exponent - 1) = 2 * (x / 2 ^ exponent) := by
      rw [zpow_sub_one₀ two_ne_zero]
      field_simp
    have hdouble : ((2 * leadingBit : Nat) : ℚ) = 2 * leadingBit := by
      push_cast
      rfl
    have hexponent : max (log - 52) minExponent = exponent - 1 := by
      have hone : (1 : ℚ) ≤ leadingBit := by norm_num [leadingBit]
      refine exponent_eq hlog hlog' (by omega) (.inr ?_) ?_ <;> rw [htwice] <;> linarith
    have hup : Nearest (x / 2 ^ (exponent - 1)) (2 * leadingBit) := by
      rw [htwice]
      refine ⟨?_, ?_, .inl (by decide)⟩ <;> rw [hdouble] <;> linarith
    rw [hexponent] at hn ⊢
    rw [hn.unique hup, encoding_carry hleast]
  · -- the unit is that of the double, so the value is rounded to its significand
    have hexponent : max (log - 52) minExponent = exponent := by
      refine exponent_eq hlog hlog' hparts.least ?_ (by linarith)
      by_cases hne : exponent = minExponent
      · exact .inl hne
      · exact .inr (not_lt.1 fun hlt => hbelow ⟨hne, hlt⟩)
    rw [hexponent] at hn ⊢
    rw [hn.unique hnearest]

/-- A quotient is rounded in any unit by a division. -/
theorem nearest_scaled {num den : Nat} (hden : 0 < den) (e : Int) :
    Nearest (num / den / 2 ^ e) (roundDiv (num * raise 2 (-e)) (den * raise 2 e)) := by
  have hscaled :
      ((num * raise 2 (-e) : Nat) : ℚ) / (den * raise 2 e : Nat) = num / den / 2 ^ e := by
    have hup : (raise 2 e : ℚ) ≠ 0 := by exact_mod_cast (raise_pos Nat.two_pos e).ne'
    have hdown : (raise 2 (-e) : ℚ) ≠ 0 := by exact_mod_cast (raise_pos Nat.two_pos (-e)).ne'
    rw [← raise_two_div_raise e]
    push_cast
    field_simp
  rw [← hscaled]
  exact nearest_roundDiv _ (Nat.mul_pos hden (raise_pos Nat.two_pos e))

/-- A quotient that is rounded to a finite double has that one as its nearest. -/
theorem nearestBits_eq_encoding {num den : Nat} (hnum : 0 < num) (hden : 0 < den)
    (hparts : Representable significand exponent)
    (h : RoundsTo significand exponent (num / den)) :
    nearestBits num den = encoding significand exponent := by
  obtain ⟨hlog, hlog'⟩ := floorLog2_spec hnum hden
  rw [nearestBits_eq hnum.ne', encoding_eq_of_roundsTo hlog hlog' hparts h (nearest_scaled hden _)]
  exact min_eq_right hparts.encoding_lt.le

end MarkupPath.Number
