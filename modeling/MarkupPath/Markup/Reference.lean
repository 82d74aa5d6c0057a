import MarkupPath.Text.Cut

/-!
# Character references

`expand` replaces the references in a text by the characters they stand for: the five named ones and
the decimal and hexadecimal numbers of XML characters. A text that is no reference is kept, the
ampersand too. `escapeText` and `escapeAttribute` write a text so that it holds no markup.
-/

set_option autoImplicit false

namespace MarkupPath.Markup.Reference

open MarkupPath.Text

/-! ## Reading -/

/-- The code points that may stand in an XML document. -/
def isXmlCodePoint (n : Nat) : Bool :=
  n == 0x9 || n == 0xA || n == 0xD || (0x20 ≤ n && n ≤ 0xD7FF) || (0xE000 ≤ n && n ≤ 0xFFFD)
    || (0x10000 ≤ n && n ≤ 0x10FFFF)

/-- The value of a decimal or hexadecimal digit. -/
def digitValue? (c : Char) : Option Nat :=
  if c.isDigit then some (c.toNat - '0'.toNat)
  else if 'a' ≤ c && c ≤ 'f' then some (c.toNat - 'a'.toNat + 10)
  else if 'A' ≤ c && c ≤ 'F' then some (c.toNat - 'A'.toNat + 10)
  else none

/-- The number that a nonempty run of digits of a base writes; one plus sign may stand before it. -/
def number? (base : Nat) (text : List Char) : Option Nat :=
  let digits := match text with
    | '+' :: digits => digits
    | digits => digits
  if digits.isEmpty then none
  else digits.foldlM (fun value c => do
    let digit ← digitValue? c
    if digit < base then some (base * value + digit) else none) 0

/-- The character with a number, if it may stand in an XML document. -/
def charOfNumber? (n : Nat) : Option Char :=
  if isXmlCodePoint n then some (Char.ofNat n) else none

/-- The characters that have names. -/
def named : List (String × Char) :=
  [("lt", '<'), ("gt", '>'), ("amp", '&'), ("quot", '"'), ("apos", '\'')]

/-- The character that a reference stands for, given without its ampersand and semicolon. -/
def charOf? : List Char → Option Char
  | '#' :: 'x' :: digits => (number? 16 digits).bind charOfNumber?
  | '#' :: 'X' :: digits => (number? 16 digits).bind charOfNumber?
  | '#' :: digits => (number? 10 digits).bind charOfNumber?
  | name => (named.find? fun entry => entry.1.toList == name).map (·.2)

/-- The reference that stands behind an ampersand, up to the next semicolon: its character and the
text behind it. -/
def read? (text : List Char) : Option (Char × List Char) :=
  match cut? [';'] text with
  | none => none
  | some (body, after) => (charOf? body).map fun c => (c, after)

theorem length_of_read? {text after : List Char} {c : Char} (h : read? text = some (c, after)) :
    after.length < text.length := by
  unfold read? at h
  split at h
  · cases h
  · next body after' hcut =>
      obtain ⟨c', _, heq⟩ := Option.map_eq_some_iff.1 h
      cases heq
      have := congrArg List.length (append_of_cut? hcut)
      simp only [List.length_append, List.length_cons, List.length_nil] at this
      omega

/-- The text with its references replaced, from left to right in one pass. -/
def expand : List Char → List Char
  | [] => []
  | c :: rest =>
      if c == '&' then
        match _h : read? rest with
        | some (replacement, after) => replacement :: expand after
        | none => c :: expand rest
      else c :: expand rest
termination_by text => text.length
decreasing_by
  · have := length_of_read? _h
    simp only [List.length_cons]
    omega
  · simp
  · simp

/-! ## Writing -/

/-- What stands for a character in the content of an element. -/
def escapeTextChar (c : Char) : List Char :=
  if c == '<' then "&lt;".toList
  else if c == '>' then "&gt;".toList
  else if c == '&' then "&amp;".toList
  else [c]

/-- What stands for a character in a double-quoted attribute value. -/
def escapeAttributeChar (c : Char) : List Char :=
  if c == '"' then "&quot;".toList else escapeTextChar c

/-- The text written as content of an element. -/
def escapeText (text : List Char) : List Char := text.flatMap escapeTextChar

/-- The text written as a double-quoted attribute value. -/
def escapeAttribute (text : List Char) : List Char := text.flatMap escapeAttributeChar

end MarkupPath.Markup.Reference
