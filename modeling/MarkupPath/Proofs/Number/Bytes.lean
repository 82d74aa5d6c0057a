import MarkupPath.Number.Bytes
import MarkupPath.Proofs.Markup.Scanning
import MarkupPath.Proofs.Number.Literal

/-!
# Numbers are found among bytes as among characters

At a place of a text each position that is found among the bytes lies behind the characters that are
split off there: digits, a sign, a numeral, an exponent. So the number is the same, and both slices
end at boundaries (`ends_leading`).
-/

set_option autoImplicit false

namespace MarkupPath.Number.Bytes

open MarkupPath.Text MarkupPath.Markup MarkupPath.Markup.Reader

/-! ## Bytes of digits -/

theorem byteLength_pos {cs : List Char} : 0 < byteLength cs ↔ cs ≠ [] := by
  constructor
  · rintro hpos rfl
    exact absurd hpos (Nat.lt_irrefl 0)
  · intro hne
    exact Nat.lt_of_lt_of_le (List.length_pos_iff.2 hne) (length_le_byteLength cs)

theorem lt_add_byteLength {n : Nat} {cs : List Char} : n < n + byteLength cs ↔ cs ≠ [] := by
  rw [Nat.lt_add_right_iff_pos, byteLength_pos]

theorem toNat_lt_of_isDigit {c : Char} (h : c.isDigit = true) : c.toNat < 128 :=
  Nat.lt_of_le_of_lt (Query.toNat_of_isDigit h).2 (by decide)

/-- Digits are single bytes, and no other character holds such a byte. -/
theorem isDigitByte_of_mem {c : Char} {b : UInt8} (hb : b ∈ String.utf8EncodeChar c) :
    isDigitByte b = c.isDigit := by
  rcases Nat.lt_or_ge c.toNat 128 with hc | hc
  · have hascii : ∀ n < 128, isDigitByte (Char.ofNat n).toUInt8 = (Char.ofNat n).isDigit := by
      decide
    have h := hascii c.toNat hc
    rw [Char.ofNat_toNat] at h
    rw [utf8EncodeChar_of_lt hc, List.mem_singleton] at hb
    rw [hb, h]
  · -- the bytes of a character outside ASCII are none of ASCII
    have hwide := le_of_mem_utf8EncodeChar hc hb
    have hbyte : ¬ b ≤ '9'.toUInt8 := fun hle => by
      have hsmall := UInt8.le_iff_toNat_le.1 hle
      have hnine : '9'.toUInt8.toNat = 57 := rfl
      omega
    have hdigit : c.isDigit = false :=
      Bool.eq_false_iff.2 fun h => Nat.not_lt.2 hc (toNat_lt_of_isDigit h)
    rw [isDigitByte, decide_eq_false hbyte, Bool.and_false, hdigit]

/-- Digits end at the same place by bytes and by characters. -/
theorem digitsEndOf_utf8 (cs : List Char) (position : Nat) :
    digitsEndOf (utf8 cs) position = position + byteLength (splitDigits cs).1 := by
  induction cs generalizing position with
  | nil => rfl
  | cons c cs ih =>
    rw [splitDigits] at ih ⊢
    cases hdigit : c.isDigit with
    | false =>
      obtain ⟨b, bytes, hbytes⟩ := exists_utf8EncodeChar_eq_cons c
      have hb : isDigitByte b = c.isDigit := isDigitByte_of_mem (hbytes ▸ List.mem_cons_self)
      rw [utf8_cons, hbytes, List.cons_append, digitsEndOf, hb, hdigit,
        List.takeWhile_cons_of_neg (by simp [hdigit])]
      rfl
    | true =>
      have hc := toNat_lt_of_isDigit hdigit
      rw [utf8_cons_of_lt hc, digitsEndOf, isDigitByte_of_mem (toUInt8_mem_of_lt hc), hdigit,
        if_pos rfl, ih, List.takeWhile_cons_of_pos hdigit, byteLength_cons, utf8Size_of_lt hc,
        Nat.add_assoc]

/-! ## Positions at places -/

section

variable {text : List Char} {p : Place}

theorem digitsEnd_of_in (hp : p.In text) :
    digitsEnd (utf8 text) p.offset = p.offset + byteLength (splitDigits p.rest).1 := by
  rw [digitsEnd, hp.drop_utf8, digitsEndOf_utf8]

/-- A byte below 128 is looked up where its character stands. -/
theorem getElem?_beq (hp : p.In text) {d : Char} (hd : d.toNat < 128) :
    ((utf8 text)[p.offset]? == some d.toUInt8) = (p.rest.head? == some d) := by
  rw [← List.head?_drop, hp.drop_utf8]
  cases hrest : p.rest with
  | nil => rfl
  | cons c rest =>
    obtain ⟨b, bytes, hbytes⟩ := exists_utf8EncodeChar_eq_cons c
    have hb : (b == d.toUInt8) = (c == d) :=
      beq_of_mem_utf8EncodeChar (hbytes ▸ List.mem_cons_self) hd
    rw [utf8_cons, hbytes]
    exact hb

/-- The sign, if there is one, is a single byte. -/
theorem signEnd_of_in (hp : p.In text) :
    signEnd (utf8 text) p.offset = p.offset + byteLength (splitSign p.rest).1 := by
  rw [signEnd, getElem?_beq hp (by decide), getElem?_beq hp (by decide)]
  by_cases hsign : p.rest.head? = some '+' ∨ p.rest.head? = some '-'
  · rw [if_pos (by simpa using hsign)]
    rcases hsign with h | h
    · obtain ⟨rest, hrest⟩ := List.head?_eq_some_iff.1 h
      rw [hrest]
      rfl
    · obtain ⟨rest, hrest⟩ := List.head?_eq_some_iff.1 h
      rw [hrest]
      rfl
  · obtain ⟨hplus, hminus⟩ := not_or.1 hsign
    have hnone : splitSign p.rest = ([], p.rest) := Sign.none.splitSign_append fun c hc =>
      ⟨fun h => hplus (h ▸ hc), fun h => hminus (h ▸ hc)⟩
    rw [if_neg (by simpa using hsign), hnone]
    rfl

/-- Behind the beginning of what is left there is a place. -/
theorem exists_before {taken rest : List Char} (h : p.rest = taken ++ rest) :
    ∃ q : Place, p.Before taken q ∧ q.rest = rest :=
  ⟨p.past taken rest, Place.before_past h, rfl⟩

/-- The numeral that is found is the one that is split off, and no text if there is none. -/
theorem numeralEnd_of_in (hp : p.In text) : numeralEnd (utf8 text) p.offset =
    p.offset + byteLength ((splitNumeral? p.rest).elim [] (·.1)) := by
  -- q is the place behind the first digits, and r the one behind the point
  obtain ⟨q, hpq, hq⟩ := exists_before (append_splitDigits p.rest).symm
  rw [numeralEnd, digitsEnd_of_in hp]
  simp only
  rw [← hpq.2, getElem?_beq (hp.of_before hpq) (by decide), hq]
  by_cases hpoint : (splitDigits p.rest).2.head? = some '.'
  · obtain ⟨after, hafter⟩ := List.head?_eq_some_iff.1 hpoint
    obtain ⟨r, hqr, hr⟩ := exists_before (show q.rest = ['.'] ++ after from hq.trans hafter)
    have hfraction := digitsEnd_of_in ((hp.of_before hpq).of_before hqr)
    have hone : r.offset = q.offset + 1 := hqr.2
    have hsplit := splitNumeral?_point (forall_isDigit_splitDigits p.rest) after
    rw [← hafter, append_splitDigits] at hsplit
    rw [if_pos (by simpa using hpoint), ← hone, hfraction, hr, hsplit]
    have hcount : (decide (q.offset > p.offset) ||
          decide (r.offset + byteLength (splitDigits after).1 > r.offset)) = true ↔
        ¬ ((splitDigits p.rest).1.isEmpty && (splitDigits after).1.isEmpty) = true := by
      rw [Bool.or_eq_true, decide_eq_true_eq, decide_eq_true_eq, hpq.2, gt_iff_lt, gt_iff_lt,
        lt_add_byteLength, lt_add_byteLength]
      simp only [Bool.and_eq_true, List.isEmpty_iff, ne_eq]
      tauto
    split
    · next hsome =>
      rw [if_neg (hcount.1 hsome), Option.elim_some, byteLength_append, byteLength_cons, hone,
        hpq.2, utf8Size_of_lt (by decide)]
      omega
    · next hnone =>
      -- a point alone is no numeral, and the digits before it end where they begin
      have hempty := not_not.1 fun hne => hnone (hcount.2 hne)
      have hwhole := List.isEmpty_iff.1 (Bool.and_eq_true_iff.1 hempty).1
      rw [if_pos hempty, Option.elim_none, hpq.2, hwhole]
  · rw [if_neg (by simpa using hpoint), splitNumeral?_no_point hpoint, hpq.2]
    split
    · next hempty =>
      rw [List.isEmpty_iff.1 hempty]
      rfl
    · rfl

/-- An exponent counts only if there is a digit behind its mark and its sign; the byte index goes
back like the split does. -/
theorem exponentEnd_of_in (hp : p.In text) : exponentEnd (utf8 text) p.offset =
    p.offset + byteLength (splitExponent p.rest).1 := by
  rw [exponentEnd, getElem?_beq hp (by decide), getElem?_beq hp (by decide)]
  cases hrest : p.rest with
  | nil => rfl
  | cons mark rest =>
    obtain ⟨s, unsigned, hsplit, rfl⟩ := Sign.exists_splitSign rest
    -- q is the place behind the mark, and r the one behind the sign
    obtain ⟨q, hpq, hq⟩ := exists_before (show p.rest = [mark] ++ (s.text ++ unsigned) from hrest)
    obtain ⟨r, hqr, hr⟩ := exists_before hq
    rw [splitExponent, List.head?_cons, Option.some_beq_some, Option.some_beq_some, hsplit]
    cases hletter : mark == 'e' || mark == 'E' with
    | false => rfl
    | true =>
      have hmark : mark.toNat < 128 := by
        rw [Bool.or_eq_true, beq_iff_eq, beq_iff_eq] at hletter
        rcases hletter with rfl | rfl <;> decide
      have hone : q.offset = p.offset + 1 := by
        rw [hpq.2, byteLength_cons, utf8Size_of_lt hmark]
        rfl
      have hin := hp.of_before hpq
      have hsign := signEnd_of_in hin
      rw [hq, hsplit, ← hqr.2] at hsign
      have hdigits := digitsEnd_of_in (hin.of_before hqr)
      rw [hr] at hdigits
      rw [if_pos rfl, if_pos rfl, ← hone, hsign]
      simp only [hdigits, gt_iff_lt, lt_add_byteLength]
      by_cases hempty : (splitDigits unsigned).1 = []
      · rw [if_neg (by simpa using hempty), if_pos (List.isEmpty_iff.2 hempty)]
        rfl
      · rw [if_pos hempty, if_neg (by simpa using hempty), hqr.2, hone, List.cons_append,
          byteLength_cons, byteLength_append, utf8Size_of_lt hmark]
        omega

end

/-! ## Whole texts -/

/-- The first byte tells the sign before what is no minus sign itself. -/
theorem exists_first_byte {s : Sign} {unsigned : List Char} {c : Char}
    (hunsigned : unsigned.head? = some c) (hc : c ≠ '-') :
    ∃ b, (utf8 (s.text ++ unsigned))[0]? = some b ∧ (b == '-'.toUInt8) = (s.text == ['-']) := by
  have hbeq := getElem?_beq (Place.in_start (s.text ++ unsigned)) (d := '-') (by decide)
  obtain ⟨later, rfl⟩ := List.head?_eq_some_iff.1 hunsigned
  have hminus : ((s.text ++ c :: later).head? == some '-') = (s.text == ['-']) := by
    cases s with
    | none => simpa [Sign.text] using hc
    | plus => rfl
    | minus => rfl
  change ((utf8 (s.text ++ c :: later))[0]? == some '-'.toUInt8) = _ at hbeq
  obtain ⟨b, hb⟩ : ∃ b, (utf8 (s.text ++ c :: later))[0]? = some b := by
    refine ⟨_, List.getElem?_eq_getElem ?_⟩
    rw [length_utf8]
    exact byteLength_pos.2 (by simp)
  refine ⟨b, hb, ?_⟩
  rw [hb, Option.some_beq_some] at hbeq
  exact hbeq.trans hminus

/-- The two slices that are taken are there, and the number is that among the characters. -/
theorem ends_leading (text : List Char) : (leading text).Ends (.ok (leading? text)) := by
  obtain ⟨s, unsigned, hsplit, htext⟩ := Sign.exists_splitSign (trimStart text)
  have hstart := Place.in_start (trimStart text)
  obtain ⟨q, hpq, hq⟩ := exists_before (p := Place.start (trimStart text)) htext
  have hin := hstart.of_before hpq
  have hsign : signEnd (utf8 (trimStart text)) 0 = q.offset := by
    have h := signEnd_of_in hstart
    rw [hpq.2]
    change signEnd _ 0 = 0 + byteLength (splitSign (trimStart text)).1 at h
    rw [h, hsplit]
    rfl
  -- the first slice is what stands behind the sign
  have hslice := ends_slice_rest (ε := Empty) hin
  have hnumeral := numeralEnd_of_in hin
  rw [hq] at hslice hnumeral
  rw [leading, leading?, hsplit]
  simp only [hsign]
  refine hslice.bind ?_
  split
  · next hinfinity =>
    have hhead : unsigned.head? = some 'I' := by
      obtain ⟨rest, hrest⟩ := Option.isSome_iff_exists.1 hinfinity
      rw [← append_of_after? hrest]
      rfl
    obtain ⟨b, hb, hminus⟩ := exists_first_byte (s := s) hhead (by decide)
    rw [htext, hb, ← hminus]
    exact (Run.Ends.unwrap b).bind (.pure _)
  · rw [splitLiteral?, hsplit]
    simp only [hnumeral]
    cases hfound : splitNumeral? unsigned with
    | none =>
      rw [Option.elim_none, byteLength_nil, if_pos (Nat.add_zero _)]
      exact .pure _
    | some halves =>
      obtain ⟨numeral, rest⟩ := halves
      obtain ⟨l, rfl, hunsigned⟩ := exists_of_splitNumeral? hfound
      have hbehind : q.offset + byteLength l.numeral ≠ q.offset :=
        Nat.ne_of_gt (lt_add_byteLength.2 l.numeral_ne)
      obtain ⟨r, hqr, hr⟩ := exists_before (hq.trans hunsigned)
      have hexponent := exponentEnd_of_in (hin.of_before hqr)
      obtain ⟨t, hrt, -⟩ := exists_before (hr.trans (append_splitExponent rest).symm)
      rw [hr, ← hrt.2] at hexponent
      -- the second slice goes from the start over the sign, the numeral and the exponent
      have hliteral := ends_slice (ε := Empty) hstart (hpq.trans (hqr.trans hrt))
      rw [Option.elim_some, if_neg hbehind, ← hqr.2, hexponent, Option.map_some]
      rw [← List.append_assoc] at hliteral
      exact hliteral.bind (.pure _)

end MarkupPath.Number.Bytes
