import MarkupPath.Markup.Reader
import MarkupPath.Number.Text

/-!
# Finding a number among bytes

The number that a text starts with, found by bytes: positions move over a sign, digits, a point with
digits and an exponent, back off where a point or an exponent has no digits, and the text up to the
last position is parsed. A `Run` records the two slices that are taken.
-/

set_option autoImplicit false

namespace MarkupPath.Number.Bytes

open MarkupPath.Markup MarkupPath.Text

/-- The byte of a decimal digit. -/
def isDigitByte (b : UInt8) : Bool := '0'.toUInt8 ≤ b && b ≤ '9'.toUInt8

/-- The position behind the digits among `bytes`, which stand at a position. -/
def digitsEndOf : List UInt8 → Nat → Nat
  | [], position => position
  | b :: rest, position => if isDigitByte b then digitsEndOf rest (position + 1) else position

/-- The position behind the digits at a position. -/
def digitsEnd (bytes : List UInt8) (position : Nat) : Nat :=
  digitsEndOf (bytes.drop position) position

/-- The position behind the sign at a position, if there is one. -/
def signEnd (bytes : List UInt8) (position : Nat) : Nat :=
  if bytes[position]? == some '+'.toUInt8 || bytes[position]? == some '-'.toUInt8 then position + 1
  else position

/-- The position behind the numeral at a position, and this position if there is none. A point
counts only with a digit before or behind it. -/
def numeralEnd (bytes : List UInt8) (start : Nat) : Nat :=
  let wholeEnd := digitsEnd bytes start
  if bytes[wholeEnd]? == some '.'.toUInt8 then
    let fractionEnd := digitsEnd bytes (wholeEnd + 1)
    if wholeEnd > start || fractionEnd > wholeEnd + 1 then fractionEnd else wholeEnd
  else wholeEnd

/-- The position behind the exponent at a position. It counts only with a digit. -/
def exponentEnd (bytes : List UInt8) (position : Nat) : Nat :=
  if bytes[position]? == some 'e'.toUInt8 || bytes[position]? == some 'E'.toUInt8 then
    let digits := signEnd bytes (position + 1)
    let stop := digitsEnd bytes digits
    if stop > digits then stop else position
  else position

/-- The number that a text starts with after leading blanks. -/
def leading (text : List Char) : Run Empty (Option Float) := do
  let text := trimStart text
  let bytes := utf8 text
  let start := signEnd bytes 0
  let unsigned ← Reader.slice text start (byteLength text)
  if (after? "Infinity".toList unsigned).isSome then
    let first ← Run.unwrap bytes[0]?
    return some (if first == '-'.toUInt8 then -infinity else infinity)
  else
    let stop := numeralEnd bytes start
    if stop = start then return none
    else
      let literal ← Reader.slice text 0 (exponentEnd bytes stop)
      return ofLiteral? literal

end MarkupPath.Number.Bytes
