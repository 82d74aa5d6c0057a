import MarkupPath.Proofs.Number.Bytes
import MarkupPath.Proofs.Number.Rounding

/-!
# The number that a text starts with

Behind leading blanks a text starts with the name of an infinity, with a literal or with no number
at all (`LeadingNumber`). Of the literals it starts with the longest one counts, as far as digits, a
point and an exponent go on; all of it is parsed, as the nearest double, and what follows makes no
difference.
-/

set_option autoImplicit false

namespace MarkupPath.Number

open MarkupPath.Text

variable {text : List Char}

/-! ## Infinities -/

/-- The text starts with the name of an infinity behind this sign. -/
def StartsInfinite (s : Sign) (text : List Char) : Prop := s.text ++ "Infinity".toList <+: text

/-- The name of an infinity is found behind its sign. -/
theorem isSome_after?_iff {s : Sign} {unsigned : List Char} (htext : text = s.text ++ unsigned) :
    (after? "Infinity".toList unsigned).isSome = true ↔ StartsInfinite s text := by
  rw [Option.isSome_iff_exists]
  constructor
  · rintro ⟨rest, hrest⟩
    refine ⟨rest, ?_⟩
    rw [List.append_assoc, append_of_after? hrest, htext]
  · rintro ⟨rest, hrest⟩
    rw [htext, List.append_assoc] at hrest
    rw [← List.append_cancel_left hrest]
    exact ⟨rest, after?_append _ _⟩

/-- A text names an infinity behind one sign at most, the one that is split off. -/
theorem splitSign_of_startsInfinite {s : Sign} (h : StartsInfinite s text) :
    ∃ unsigned, splitSign text = (s.text, unsigned) ∧ text = s.text ++ unsigned := by
  obtain ⟨rest, rfl⟩ := h
  refine ⟨"Infinity".toList ++ rest, ?_, List.append_assoc _ _ _⟩
  rw [List.append_assoc]
  refine s.splitSign_append fun c hc => ?_
  cases hc
  decide

theorem leading?_of_startsInfinite {s : Sign} (h : StartsInfinite s (trimStart text)) :
    leading? text = some (s.apply infinity) := by
  obtain ⟨unsigned, hsplit, htext⟩ := splitSign_of_startsInfinite h
  rw [leading?, hsplit]
  simp only [if_pos ((isSome_after?_iff htext).2 h), s.apply_eq]

/-! ## Literals -/

theorem leading?_of_not_startsInfinite (h : ∀ s, ¬ StartsInfinite s (trimStart text)) :
    leading? text = (splitLiteral? (trimStart text)).bind fun halves => ofLiteral? halves.1 := by
  obtain ⟨s, unsigned, hsplit, htext⟩ := Sign.exists_splitSign (trimStart text)
  rw [leading?, hsplit]
  simp only [if_neg fun hsome => h s ((isSome_after?_iff htext).1 hsome)]
  cases splitLiteral? (trimStart text) <;> rfl

/-- How the number that a text starts with is read. -/
structure LeadingNumber (text : List Char) : Prop where
  /-- Among the bytes of the text the same number is found, by slices between characters. -/
  byBytes : (Bytes.leading text).Ends (.ok (leading? text))
  /-- The name of an infinity counts before everything else. -/
  infinite : ∀ s, StartsInfinite s (trimStart text) → leading? text = some (s.apply infinity)
  /-- Without it there is no number if the text starts with no literal. -/
  none_iff : (∀ s, ¬ StartsInfinite s (trimStart text)) →
    (leading? text = none ↔ ∀ l : Literal, ¬ l.text <+: trimStart text)
  /-- Of the literals that the text starts with one is the longest. -/
  exists_longest : ∀ l : Literal, l.text <+: trimStart text →
    ∃ longest : Literal, longest.IsLongest (trimStart text)
  /-- The number is that of the longest literal, whatever follows it. -/
  longest : (∀ s, ¬ StartsInfinite s (trimStart text)) →
    ∀ l : Literal, l.IsLongest (trimStart text) → leading? text = ofLiteral? l.text
  /-- All of a literal is parsed. -/
  parsed : ∀ l : Literal, ofLiteral? l.text = some (l.sign.apply l.decimal.toFloat)
  /-- It is the double that the exact value is rounded to, with its sign. -/
  nearest : ∀ l : Literal, NearestDouble l.decimal.value l.decimal.toFloat

theorem leadingNumber (text : List Char) : LeadingNumber text where
  byBytes := Bytes.ends_leading text
  infinite _ := leading?_of_startsInfinite
  none_iff h := by
    rw [leading?_of_not_startsInfinite h, ← splitLiteral?_eq_none_iff, Option.bind_eq_none_iff]
    constructor
    · intro hnone
      -- all of a literal that is split off is parsed, so none is split off
      rw [Option.eq_none_iff_forall_not_mem]
      rintro ⟨literal, rest⟩ hsplit
      obtain ⟨l, rfl, -⟩ := splitLiteral?_eq_some_iff.1 hsplit
      have hparsed := hnone _ hsplit
      rw [l.ofLiteral?_text] at hparsed
      cases hparsed
    · intro hnone halves hsplit
      rw [hnone] at hsplit
      cases hsplit
  exists_longest l := by
    rintro ⟨rest, htext⟩
    obtain ⟨longer, behind, hsplit, -⟩ := l.exists_splitLiteral? rest
    rw [htext] at hsplit
    obtain ⟨longest, -, hlongest, -⟩ := splitLiteral?_eq_some_iff.1 hsplit
    exact ⟨longest, hlongest⟩
  longest h l hlongest := by
    obtain ⟨rest, htext⟩ := hlongest.isPrefix
    rw [leading?_of_not_startsInfinite h,
      splitLiteral?_eq_some_iff.2 ⟨l, rfl, hlongest, htext.symm⟩]
    rfl
  parsed l := l.ofLiteral?_text
  nearest l := l.decimal.nearest_toFloat

/-- The point goes with the digits before it, and an exponent without digits is left. -/
theorem leadingNumber_backedOff :
    let text := " \t-12.e+é".toList
    LeadingNumber text ∧ leading? text = some (-12.0) := by
  intro text
  exact ⟨leadingNumber text, by decide +kernel⟩

end MarkupPath.Number
