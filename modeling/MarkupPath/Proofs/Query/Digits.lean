import MarkupPath.Proofs.Number.Shortest
import MarkupPath.Proofs.Query.Lexing

/-!
# Numbers read back from their plain text

The plain text of a finite double without a sign is a numeral, and the value of that numeral is the
double: `exists_numeral_plain`. A decimal is written as a numeral of the same value, with or without
a point, and decimals of the same value are read as the same double.
-/

set_option autoImplicit false

namespace MarkupPath.Query

open MarkupPath.Number

/-! ## Digits in their places -/

theorem digitsValue_eq (ds : List Char) : digitsValue ds = Nat.ofDigitChars 10 ds 0 := rfl

theorem digitsValue_toDigits (n : Nat) : digitsValue (Nat.toDigits 10 n) = n :=
  Nat.ofDigitChars_ten_toDigits

theorem digitsValue_append_zeros (ds : List Char) (n : Nat) :
    digitsValue (ds ++ List.replicate n '0') = digitsValue ds * 10 ^ n := by
  rw [digitsValue_eq, digitsValue_eq, Nat.ofDigitChars_append, Nat.ofDigitChars_replicate_zero,
    Nat.mul_comm]

theorem digitsValue_zeros_append (n : Nat) (ds : List Char) :
    digitsValue (List.replicate n '0' ++ ds) = digitsValue ds := by
  rw [digitsValue_eq, digitsValue_eq, Nat.ofDigitChars_append, Nat.ofDigitChars_replicate_zero,
    Nat.mul_zero]

section

variable {whole part : List Char} (hne : whole ≠ []) (hwhole : ∀ c ∈ whole, c.isDigit = true)

include hne hwhole

theorem exists_numeral_whole :
    ∃ n : Numeral, n.chars = whole ∧ numeralValue n.chars = ⟨digitsValue whole, 0⟩ := by
  obtain ⟨d, hd⟩ := exists_digits hne hwhole
  have hsplit : splitDigits (whole ++ []) = (whole, []) := splitDigits_append hwhole (by simp)
  rw [List.append_nil] at hsplit
  refine ⟨.whole d, hd, ?_⟩
  rw [Numeral.chars, hd]
  simp only [numeralValue, hsplit]
  simp [splitDigits]

theorem exists_numeral_decimal (hne' : part ≠ []) (hpart : ∀ c ∈ part, c.isDigit = true) :
    ∃ n : Numeral, n.chars = whole ++ '.' :: part ∧
      numeralValue n.chars = ⟨digitsValue (whole ++ part), -(part.length : Int)⟩ := by
  obtain ⟨d, hd⟩ := exists_digits hne hwhole
  obtain ⟨d', hd'⟩ := exists_digits hne' hpart
  have hpoint : ∀ c ∈ ('.' :: part).head?, c.isDigit = false := by simp
  have hsplit : splitDigits (part ++ []) = (part, []) := splitDigits_append hpart (by simp)
  rw [List.append_nil] at hsplit
  refine ⟨.decimal d d', by rw [Numeral.chars, hd, hd'], ?_⟩
  rw [Numeral.chars, hd, hd']
  simp only [numeralValue, splitDigits_append hwhole hpoint, List.drop_succ_cons, List.drop_zero,
    hsplit]

end

theorem forall_isDigit_zeros (n : Nat) : ∀ c ∈ List.replicate n '0', c.isDigit = true := by
  intro c hc
  rw [List.eq_of_mem_replicate hc]
  rfl

/-- A decimal is written as a numeral of the same value. -/
theorem exists_numeral_positional (d : Decimal) :
    ∃ n : Numeral, n.chars = d.positional.toList ∧ (numeralValue n.chars).value = d.value := by
  have hne : Nat.toDigits 10 d.coefficient ≠ [] := Nat.toDigits_ne_nil
  have hdigits : ∀ c ∈ Nat.toDigits 10 d.coefficient, c.isDigit = true :=
    fun c => Nat.isDigit_of_mem_toDigits (by decide) (by decide)
  have hcoefficient := digitsValue_toDigits d.coefficient
  simp only [Decimal.positional]
  generalize Nat.toDigits 10 d.coefficient = ds at hne hdigits hcoefficient ⊢
  split
  · -- zeros behind the digits
    next hplaces =>
    have hne' : ds ++ List.replicate d.exponent.toNat '0' ≠ [] := by simp [hne]
    obtain ⟨n, hchars, hvalue⟩ := exists_numeral_whole hne'
      (List.forall_mem_append.2 ⟨hdigits, forall_isDigit_zeros _⟩)
    obtain ⟨k, hk⟩ : ∃ k : Nat, d.exponent = k := ⟨d.exponent.toNat, by omega⟩
    refine ⟨n, by rw [hchars, String.toList_ofList], ?_⟩
    rw [hvalue, digitsValue_append_zeros, hcoefficient]
    simp [Decimal.value, hk]
  · next hplaces =>
    have hexponent : -((-d.exponent).toNat : Int) = d.exponent := by omega
    split
    · -- zeros between the point and the digits
      next hle =>
      have hne' : List.replicate ((-d.exponent).toNat - ds.length) '0' ++ ds ≠ [] := by simp [hne]
      have hlength : (List.replicate ((-d.exponent).toNat - ds.length) '0' ++ ds).length =
          (-d.exponent).toNat := by
        rw [List.length_append, List.length_replicate]
        omega
      have hzero : List.replicate 1 '0' ≠ [] := List.cons_ne_nil _ _
      obtain ⟨n, hchars, hvalue⟩ := exists_numeral_decimal hzero (forall_isDigit_zeros 1)
        hne' (List.forall_mem_append.2 ⟨forall_isDigit_zeros _, hdigits⟩)
      refine ⟨n, by rw [hchars, String.toList_ofList]; rfl, ?_⟩
      rw [hvalue, hlength, hexponent, digitsValue_zeros_append 1, digitsValue_zeros_append,
        hcoefficient, Decimal.value]
    · -- the point between the digits
      next hgt =>
      have htake : ds.take (ds.length - (-d.exponent).toNat) ≠ [] := by
        rw [ne_eq, List.take_eq_nil_iff, not_or]
        exact ⟨by omega, hne⟩
      have hdrop : ds.drop (ds.length - (-d.exponent).toNat) ≠ [] := by
        rw [ne_eq, List.drop_eq_nil_iff]
        omega
      have hlength : (ds.drop (ds.length - (-d.exponent).toNat)).length = (-d.exponent).toNat := by
        rw [List.length_drop]
        omega
      obtain ⟨n, hchars, hvalue⟩ := exists_numeral_decimal htake
        (fun c hc => hdigits c (List.mem_of_mem_take hc)) hdrop
        (fun c hc => hdigits c (List.mem_of_mem_drop hc))
      refine ⟨n, by rw [hchars, String.toList_ofList], ?_⟩
      rw [hvalue, List.take_append_drop, hlength, hexponent, hcoefficient, Decimal.value]

/-! ## The text of a double -/

theorem exists_toFloat_eq (d : Decimal) :
    ∃ bits ≤ infinityBits, d.toFloat = Float.ofBits bits.toUInt64 := by
  have hzero : (0.0 : Float) = Float.ofBits (Nat.toUInt64 0) := by decide
  rw [Decimal.toFloat]
  split
  · exact ⟨0, Nat.zero_le _, hzero⟩
  · simp only
    split
    · exact ⟨infinityBits, Nat.le_refl _, rfl⟩
    · split
      · exact ⟨0, Nat.zero_le _, hzero⟩
      · exact ⟨_, nearestBits_le _ _, rfl⟩

/-- Decimals are read as doubles without a sign. -/
theorem negative_eq_false {d : Decimal} {b : Binary} (h : Binary.ofFloat? d.toFloat = some b) :
    b.negative = false := by
  obtain ⟨bits, hle, hbits⟩ := exists_toFloat_eq d
  have hsmall : bits < signBit := Nat.lt_of_le_of_lt hle (by decide)
  have htoNat : bits.toUInt64.toNat = bits := by
    simp only [signBit] at hsmall
    simp
    omega
  have htoBits : d.toFloat.toBits.toNat = bits := by
    rw [hbits, toBits_ofBits, htoNat]
    rwa [htoNat, Nat.mod_eq_of_lt hsmall]
  rw [(ofFloat?_eq_some h).2.2, htoBits]
  exact decide_eq_false (Nat.not_le.2 hsmall)

/-- The plain text of a finite double without a sign is a numeral of that value. -/
theorem exists_numeral_plain {x : Float} {b : Binary} (h : Binary.ofFloat? x = some b)
    (hsign : b.negative = false) : ∃ n : Numeral, n.chars = (plain x).toList ∧ n.value = x := by
  have hx := eq_ofBits_encoding h hsign
  simp only [plain, h, hsign, Bool.false_eq_true, if_false]
  -- zero has no shortest decimal and is written on its own
  by_cases hzero : b.significand = 0
  · rw [if_pos hzero]
    refine ⟨.whole ⟨'0', [], rfl, rfl⟩, rfl, ?_⟩
    rw [hx, hzero, encoding, if_pos (by decide)]
    decide
  · rw [if_neg hzero]
    obtain ⟨n, hchars, hvalue⟩ :=
      exists_numeral_positional (Decimal.shortest b.significand b.exponent)
    refine ⟨n, hchars, ?_⟩
    rw [Numeral.value, hx]
    exact Decimal.toFloat_of_value_shortest (ofFloat?_eq_some h).1 (Nat.pos_of_ne_zero hzero) hvalue

end MarkupPath.Query
