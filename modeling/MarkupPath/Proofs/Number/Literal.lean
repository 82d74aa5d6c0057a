import MarkupPath.Proofs.Number.Shortest
import MarkupPath.Proofs.Query.Lexing

/-!
# The literal that a text starts with

A number is written as a sign, digits with a point among them or before them, and an exponent; the
sign and the exponent may be missing (`Literal`). What is split off a text is the longest such
literal that it starts with (`splitLiteral?_eq_some_iff`), and all of a literal is parsed as its
value (`ofLiteral?_text`).
-/

set_option autoImplicit false

namespace MarkupPath.Number

open MarkupPath.Text MarkupPath.Query

/-! ## Signs -/

/-- A sign that may be missing. -/
inductive Sign where
  | none
  | plus
  | minus
  deriving DecidableEq, Repr

namespace Sign

def text : Sign → List Char
  | none => []
  | plus => ['+']
  | minus => ['-']

/-- The double with this sign. -/
def apply : Sign → Float → Float
  | none, x => x
  | plus, x => x
  | minus, x => -x

/-- The integer with this sign. -/
def times : Sign → Nat → Int
  | none, n => n
  | plus, n => n
  | minus, n => -n

theorem apply_eq (s : Sign) (x : Float) : s.apply x = if s.text == ['-'] then -x else x := by
  cases s <;> rfl

theorem times_eq (s : Sign) (n : Nat) :
    s.times n = if s.text == ['-'] then -(n : Int) else n := by
  cases s <;> rfl

/-- A sign is split off if no further sign follows. -/
theorem splitSign_append (s : Sign) {rest : List Char}
    (hrest : ∀ c ∈ rest.head?, c ≠ '+' ∧ c ≠ '-') :
    splitSign (s.text ++ rest) = (s.text, rest) := by
  cases s with
  | plus => rfl
  | minus => rfl
  | none =>
    rw [text, List.nil_append]
    unfold splitSign
    split
    · exact absurd rfl (hrest '+' rfl).1
    · exact absurd rfl (hrest '-' rfl).2
    · rfl

theorem exists_splitSign (text : List Char) :
    ∃ s : Sign, ∃ rest, splitSign text = (s.text, rest) ∧ text = s.text ++ rest := by
  unfold splitSign
  split
  · exact ⟨.plus, _, rfl, rfl⟩
  · exact ⟨.minus, _, rfl, rfl⟩
  · exact ⟨.none, _, rfl, rfl⟩

end Sign

/-! ## Literals -/

/-- A mark, a sign and digits. -/
structure Exponent where
  mark : Char
  sign : Sign
  digits : List Char
  mark_letter : mark = 'e' ∨ mark = 'E'
  digits_ne : digits ≠ []
  digits_digit : ∀ c ∈ digits, c.isDigit = true

/-- A number as it is written: a sign, digits, a point with digits behind it, an exponent. The sign,
the point and the exponent may be missing, and so may the digits on one side of the point. -/
structure Literal where
  sign : Sign
  whole : List Char
  fraction : Option (List Char)
  exponent : Option Exponent
  whole_digit : ∀ c ∈ whole, c.isDigit = true
  fraction_digit : ∀ digits ∈ fraction, ∀ c ∈ digits, c.isDigit = true
  has_digit : whole ≠ [] ∨ ∃ digits ∈ fraction, digits ≠ []

def Exponent.text (e : Exponent) : List Char := e.mark :: (e.sign.text ++ e.digits)

def Exponent.value (e : Exponent) : Int := e.sign.times (digitsValue e.digits)

namespace Literal

variable (l : Literal)

/-- The text between the sign and the exponent. -/
def numeral : List Char := l.whole ++ l.fraction.elim [] ('.' :: ·)

def text : List Char := l.sign.text ++ (l.numeral ++ l.exponent.elim [] Exponent.text)

/-- The exact value without the sign: all digits, moved by the exponent and past the point. -/
def decimal : Decimal where
  coefficient := digitsValue (l.whole ++ l.fraction.getD [])
  exponent := -((l.fraction.getD []).length : Int) + l.exponent.elim 0 Exponent.value

/-- The nearest double to the exact value, with the sign. -/
def value : Float := l.sign.apply l.decimal.toFloat

end Literal

/-! ## Digits at the front -/

section

variable {digits rest : List Char}

/-- Digits are split off with the digits behind them. -/
theorem splitDigits_digits_append (hdigits : ∀ c ∈ digits, c.isDigit = true) (rest : List Char) :
    splitDigits (digits ++ rest) = (digits ++ (splitDigits rest).1, (splitDigits rest).2) := by
  rw [splitDigits, List.takeWhile_append_of_pos hdigits, List.dropWhile_append_of_pos hdigits]
  rfl

theorem forall_isDigit_splitDigits (text : List Char) :
    ∀ c ∈ (splitDigits text).1, c.isDigit = true := fun _ hc => List.mem_takeWhile_imp hc

theorem not_isDigit_point {rest : List Char} : ∀ c ∈ ('.' :: rest).head?, c.isDigit = false := by
  simp

theorem not_isDigit_nil : ∀ c ∈ ([] : List Char).head?, c.isDigit = false := by simp

theorem append_splitDigits (text : List Char) :
    (splitDigits text).1 ++ (splitDigits text).2 = text := List.takeWhile_append_dropWhile

end

/-! ## Exponents -/

namespace Exponent

variable (e : Exponent)

theorem digits_no_sign {rest : List Char} : ∀ c ∈ (e.digits ++ rest).head?, c ≠ '+' ∧ c ≠ '-' := by
  obtain ⟨d, digits, hdigits⟩ := List.exists_cons_of_ne_nil e.digits_ne
  have hd := e.digits_digit d (by simp [hdigits])
  intro c hc
  rw [hdigits] at hc
  cases hc
  constructor <;> (rintro rfl; exact absurd hd (by decide))

/-- An exponent is split off with the digits behind it. -/
theorem splitExponent_append (rest : List Char) : splitExponent (e.text ++ rest) =
    (e.text ++ (splitDigits rest).1, (splitDigits rest).2) := by
  have hmark : (e.mark == 'e' || e.mark == 'E') = true := by
    rw [Bool.or_eq_true, beq_iff_eq, beq_iff_eq]
    exact e.mark_letter
  have hne : (e.digits ++ (splitDigits rest).1).isEmpty = false := by
    simp [e.digits_ne]
  rw [text, List.cons_append, List.append_assoc, splitExponent, if_pos hmark,
    e.sign.splitSign_append e.digits_no_sign]
  simp only [splitDigits_digits_append e.digits_digit, hne, if_neg Bool.false_ne_true,
    List.cons_append, List.append_assoc]

theorem exponentValue_text : exponentValue e.text = e.value := by
  rw [exponentValue, text, List.drop_succ_cons, List.drop_zero,
    ← List.append_nil e.digits, e.sign.splitSign_append e.digits_no_sign, List.append_nil, value,
    Sign.times_eq]

/-- What is split off is an exponent, unless there is none. -/
theorem exists_of_splitExponent (text : List Char) : splitExponent text = ([], text) ∨
    ∃ e : Exponent, ∃ rest, splitExponent text = (e.text, rest) ∧ text = e.text ++ rest := by
  cases text with
  | nil => exact .inl rfl
  | cons mark text =>
    obtain ⟨s, unsigned, hsplit, rfl⟩ := Sign.exists_splitSign text
    rw [splitExponent, hsplit]
    split
    · next hmark =>
      rw [Bool.or_eq_true, beq_iff_eq, beq_iff_eq] at hmark
      dsimp only
      split
      · exact .inl rfl
      · next hdigits =>
        refine .inr ⟨⟨mark, s, (splitDigits unsigned).1, hmark, by simpa using hdigits,
          forall_isDigit_splitDigits unsigned⟩, (splitDigits unsigned).2, rfl, ?_⟩
        rw [Exponent.text, List.cons_append, List.append_assoc, append_splitDigits]
    · exact .inl rfl

end Exponent

theorem append_splitExponent (text : List Char) :
    (splitExponent text).1 ++ (splitExponent text).2 = text := by
  obtain hnone | ⟨e, rest, hsome, htext⟩ := Exponent.exists_of_splitExponent text
  · rw [hnone, List.nil_append]
  · rw [hsome, htext]

/-! ## Numerals -/

section

variable {whole text after : List Char}

theorem splitNumeral?_point (hwhole : ∀ c ∈ whole, c.isDigit = true) (after : List Char) :
    splitNumeral? (whole ++ '.' :: after) =
      if whole.isEmpty && (splitDigits after).1.isEmpty then none
      else some (whole ++ '.' :: (splitDigits after).1, (splitDigits after).2) := by
  rw [splitNumeral?, splitDigits_append hwhole not_isDigit_point]
  rfl

theorem splitNumeral?_no_point (h : (splitDigits text).2.head? ≠ some '.') :
    splitNumeral? text =
      if (splitDigits text).1.isEmpty then none else some (splitDigits text) := by
  rw [splitNumeral?]
  dsimp only
  split
  · next hpoint => exact absurd (by rw [hpoint]; rfl) h
  · rfl

end

namespace Literal

variable (l : Literal)

/-- A numeral does not start with a sign. -/
theorem numeral_no_sign {rest : List Char} :
    ∀ c ∈ (l.numeral ++ rest).head?, c ≠ '+' ∧ c ≠ '-' := by
  intro c hc
  cases hwhole : l.whole with
  | cons d digits =>
    have hd := l.whole_digit d (by simp [hwhole])
    rw [numeral, hwhole] at hc
    cases hc
    constructor <;> (rintro rfl; exact absurd hd (by decide))
  | nil =>
    cases hfraction : l.fraction with
    | none => exact absurd l.has_digit (by simp [hwhole, hfraction])
    | some digits =>
      rw [numeral, hwhole, hfraction] at hc
      cases hc
      decide

theorem numeral_ne : l.numeral ≠ [] := by
  intro hnil
  obtain ⟨hwhole, hfraction⟩ := List.append_eq_nil_iff.1 hnil
  rcases l.has_digit with hne | ⟨digits, hsome, -⟩
  · exact hne hwhole
  · rw [Option.mem_def.1 hsome] at hfraction
    cases hfraction

/-- The numeral that is split off goes on at least as far. -/
theorem exists_splitNumeral? (rest : List Char) : ∃ longer rest',
    splitNumeral? (l.numeral ++ rest) = some (longer, rest') ∧ l.numeral <+: longer := by
  cases hfraction : l.fraction with
  | some digits =>
    have hne : ¬ (l.whole.isEmpty && (digits ++ (splitDigits rest).1).isEmpty) = true := by
      have h := l.has_digit
      rw [hfraction] at h
      simp only [Option.mem_some_iff, exists_eq_left'] at h
      simp only [Bool.and_eq_true, List.isEmpty_iff, List.append_eq_nil_iff, not_and]
      tauto
    rw [numeral, hfraction, List.append_assoc, Option.elim_some, List.cons_append,
      splitNumeral?_point l.whole_digit,
      splitDigits_digits_append (l.fraction_digit digits hfraction), if_neg hne]
    exact ⟨_, _, rfl, ⟨(splitDigits rest).1, by rw [List.append_assoc]; rfl⟩⟩
  | none =>
    have hne : l.whole ≠ [] := by
      have h := l.has_digit
      rw [hfraction] at h
      simpa using h
    rw [numeral, hfraction, Option.elim_none, List.append_nil]
    by_cases hpoint : (splitDigits rest).2.head? = some '.'
    · -- the digits that follow belong to the part before the point
      obtain ⟨after, hafter⟩ := List.head?_eq_some_iff.1 hpoint
      have hwhole := List.forall_mem_append.2 ⟨l.whole_digit, forall_isDigit_splitDigits rest⟩
      have htext : l.whole ++ rest = l.whole ++ (splitDigits rest).1 ++ '.' :: after := by
        rw [← hafter, List.append_assoc, append_splitDigits]
      rw [htext, splitNumeral?_point hwhole, if_neg (by simp [hne])]
      exact ⟨_, _, rfl, ⟨_, (List.append_assoc _ _ _).symm⟩⟩
    · rw [splitNumeral?_no_point (by rwa [splitDigits_digits_append l.whole_digit]),
        splitDigits_digits_append l.whole_digit, if_neg (by simp [hne])]
      exact ⟨_, _, rfl, ⟨_, rfl⟩⟩

/-- Before an exponent, or nothing, a numeral ends. -/
theorem splitNumeral?_numeral {rest : List Char}
    (hrest : ∀ c ∈ rest.head?, c.isDigit = false ∧ c ≠ '.') :
    splitNumeral? (l.numeral ++ rest) = some (l.numeral, rest) := by
  cases hfraction : l.fraction with
  | some digits =>
    have hne : l.whole ≠ [] ∨ digits ≠ [] := by simpa [hfraction] using l.has_digit
    have hnumeral : l.numeral = l.whole ++ '.' :: digits := by rw [numeral, hfraction]; rfl
    rw [hnumeral]
    exact (IsNumeral.pointed hne l.whole_digit (l.fraction_digit digits hfraction)).splitNumeral?
      fun c hc => by simp [(hrest c hc).1]
  | none =>
    have hne : l.whole ≠ [] := by simpa [hfraction] using l.has_digit
    have hnumeral : l.numeral = l.whole := by
      rw [numeral, hfraction, Option.elim_none, List.append_nil]
    rw [hnumeral]
    exact (IsNumeral.whole hne l.whole_digit).splitNumeral? fun c hc => by simp [hrest c hc]

/-- The digits on both sides of the point are read as one number, moved by the count of those behind
it. -/
theorem numeralValue_numeral : numeralValue l.numeral =
    ⟨digitsValue (l.whole ++ l.fraction.getD []), -((l.fraction.getD []).length : Int)⟩ := by
  cases hfraction : l.fraction with
  | some digits =>
    have hdigits := splitDigits_append (l.fraction_digit digits hfraction) not_isDigit_nil
    rw [List.append_nil] at hdigits
    rw [numeral, hfraction, numeralValue, Option.elim_some,
      splitDigits_append l.whole_digit not_isDigit_point]
    simp only [List.drop_succ_cons, List.drop_zero, hdigits]
    rfl
  | none =>
    rw [numeral, hfraction, numeralValue, Option.elim_none,
      splitDigits_append l.whole_digit not_isDigit_nil]
    rfl

end Literal

/-- What is split off as a numeral is that of a literal. -/
theorem exists_of_splitNumeral? {text numeral rest : List Char}
    (h : splitNumeral? text = some (numeral, rest)) :
    ∃ l : Literal, l.numeral = numeral ∧ text = numeral ++ rest := by
  obtain ⟨htext, stops, hnumeral, -⟩ := isNumeral_of_splitNumeral? h
  cases hnumeral with
  | whole hne hdigits =>
    exact ⟨⟨.none, numeral, none, none, hdigits, by simp, .inl hne⟩, List.append_nil _, htext⟩
  | @pointed whole fraction hne hwhole hfraction =>
    refine ⟨⟨.none, whole, some fraction, none, hwhole, ?_, ?_⟩, rfl, htext⟩
    · rintro _ ⟨⟩
      exact hfraction
    · exact hne.imp_right fun h => ⟨fraction, rfl, h⟩

/-! ## Literals at the front of a text -/

namespace Literal

variable (l : Literal)

theorem text_append (rest : List Char) : l.text ++ rest =
    l.sign.text ++ (l.numeral ++ (l.exponent.elim [] Exponent.text ++ rest)) := by
  simp only [text, List.append_assoc]

/-- An exponent ends the numeral before it. -/
theorem exponent_no_digit : ∀ e : Exponent, ∀ rest, ∀ c ∈ (e.text ++ rest).head?,
    c.isDigit = false ∧ c ≠ '.' := by
  intro e rest c hc
  cases hc
  rcases e.mark_letter with h | h <;> (rw [h]; decide)

/-- All of a literal is parsed, and as its value. -/
theorem ofLiteral?_text : ofLiteral? l.text = some l.value := by
  have hexponent : ∀ c ∈ (l.exponent.elim [] Exponent.text).head?, c.isDigit = false ∧ c ≠ '.' := by
    cases l.exponent with
    | none => simp
    | some e =>
      have h := exponent_no_digit e []
      rwa [List.append_nil] at h
  have hsplit : splitExponent (l.exponent.elim [] Exponent.text) =
      (l.exponent.elim [] Exponent.text, []) := by
    cases l.exponent with
    | none => rfl
    | some e =>
      have h := e.splitExponent_append []
      simpa [splitDigits] using h
  have hvalue : exponentValue (l.exponent.elim [] Exponent.text) =
      l.exponent.elim 0 Exponent.value := by
    cases l.exponent with
    | none => rfl
    | some e => exact e.exponentValue_text
  rw [ofLiteral?, text, l.sign.splitSign_append l.numeral_no_sign]
  simp only [l.splitNumeral?_numeral hexponent, hsplit, List.isEmpty_nil, if_true, hvalue,
    l.numeralValue_numeral, value, Sign.apply_eq, decimal]

/-- The literal that is split off goes on at least as far as any that the text starts with. -/
theorem exists_splitLiteral? (rest : List Char) : ∃ longer rest',
    splitLiteral? (l.text ++ rest) = some (longer, rest') ∧ l.text.length ≤ longer.length := by
  rw [l.text_append, splitLiteral?, l.sign.splitSign_append l.numeral_no_sign]
  cases hexponent : l.exponent with
  | none =>
    -- the rest may go on with digits, a point or an exponent
    obtain ⟨numeral, rest', hsplit, hprefix⟩ := l.exists_splitNumeral? rest
    refine ⟨_, _, by simp only [Option.elim_none, List.nil_append, hsplit]; rfl, ?_⟩
    have hlength := hprefix.length_le
    simp only [text, hexponent, Option.elim_none, List.length_append, List.length_nil]
    omega
  | some e =>
    -- the exponent ends the numeral, and only its digits may go on
    have hsplit := l.splitNumeral?_numeral (exponent_no_digit e rest)
    refine ⟨_, _, by simp only [Option.elim_some, hsplit]; rfl, ?_⟩
    simp only [text, hexponent, Option.elim_some, e.splitExponent_append, List.length_append]
    omega

/-- What is split off a text is a literal. -/
theorem exists_of_splitLiteral? {text literal rest : List Char}
    (h : splitLiteral? text = some (literal, rest)) :
    ∃ l : Literal, l.text = literal ∧ text = literal ++ rest := by
  obtain ⟨s, unsigned, hsign, rfl⟩ := Sign.exists_splitSign text
  rw [splitLiteral?, hsign] at h
  obtain ⟨⟨numeral, behind⟩, hnumeral, hpair⟩ := Option.map_eq_some_iff.1 h
  obtain ⟨l, rfl, rfl⟩ := exists_of_splitNumeral? hnumeral
  dsimp only at hpair
  obtain hnone | ⟨e, rest', hsome, rfl⟩ := Exponent.exists_of_splitExponent behind
  · rw [hnone] at hpair
    cases hpair
    refine ⟨{ l with sign := s, exponent := none }, (List.append_assoc _ _ _).symm, ?_⟩
    rw [List.append_nil, List.append_assoc]
  · rw [hsome] at hpair
    cases hpair
    refine ⟨{ l with sign := s, exponent := some e }, (List.append_assoc _ _ _).symm, ?_⟩
    simp only [List.append_assoc]

/-- The literal is the longest one that the text starts with. -/
structure IsLongest (text : List Char) : Prop where
  isPrefix : l.text <+: text
  longest : ∀ l' : Literal, l'.text <+: text → l'.text.length ≤ l.text.length

end Literal

/-- The longest literal that a text starts with is split off. -/
theorem splitLiteral?_eq_some_iff {text literal rest : List Char} :
    splitLiteral? text = some (literal, rest) ↔
      ∃ l : Literal, l.text = literal ∧ l.IsLongest text ∧ text = literal ++ rest := by
  constructor
  · intro h
    obtain ⟨l, hl, htext⟩ := Literal.exists_of_splitLiteral? h
    refine ⟨l, hl, ⟨⟨rest, hl ▸ htext.symm⟩, ?_⟩, htext⟩
    rintro l' ⟨rest', rfl⟩
    obtain ⟨longer, behind, hlonger, hlength⟩ := l'.exists_splitLiteral? rest'
    rw [h] at hlonger
    cases hlonger
    rwa [hl]
  · rintro ⟨l, rfl, hlongest, rfl⟩
    obtain ⟨longer, behind, hlonger, hlength⟩ := l.exists_splitLiteral? rest
    obtain ⟨l', rfl, htext⟩ := Literal.exists_of_splitLiteral? hlonger
    -- none is longer, so it is the same piece of the text
    have hle := hlongest.longest l' ⟨behind, htext.symm⟩
    obtain ⟨htext', hrest⟩ := List.append_inj htext (Nat.le_antisymm hlength hle)
    rw [hlonger, ← htext', ← hrest]

/-- Nothing is split off if the text starts with no literal. -/
theorem splitLiteral?_eq_none_iff {text : List Char} :
    splitLiteral? text = none ↔ ∀ l : Literal, ¬ l.text <+: text := by
  constructor
  · rintro h l ⟨rest, rfl⟩
    obtain ⟨longer, behind, hlonger, -⟩ := l.exists_splitLiteral? rest
    rw [h] at hlonger
    cases hlonger
  · intro h
    rw [Option.eq_none_iff_forall_not_mem]
    rintro ⟨literal, rest⟩ hsplit
    obtain ⟨l, rfl, rfl⟩ := Literal.exists_of_splitLiteral? hsplit
    exact h l (List.prefix_append _ _)

end MarkupPath.Number
