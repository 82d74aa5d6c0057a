import MarkupPath.Number.Decimal
import MarkupPath.Text.Blank
import MarkupPath.Text.Cut

/-!
# Numbers as text

Reading: a numeral is a run of digits with an optional fraction, or a fraction alone; a literal is a
numeral with an optional sign and exponent. `splitNumeral?` and `splitLiteral?` split the longest
one off a text, `ofLiteral?` gives the value of a whole literal, and `leading?` reads the number a
text starts with, whatever follows it.

Writing: `plain` gives the fewest digits that read back, in positional notation; `canonical` differs
from it in the spelling of the infinities and of negative zero.
-/

set_option autoImplicit false

namespace MarkupPath.Number

open MarkupPath.Text

/-! ## The shape of a number -/

/-- The sign a text starts with, if any, and the rest. -/
def splitSign : List Char → List Char × List Char
  | '+' :: rest => (['+'], rest)
  | '-' :: rest => (['-'], rest)
  | text => ([], text)

/-- The digits a text starts with, and the rest. -/
def splitDigits (text : List Char) : List Char × List Char :=
  (text.takeWhile Char.isDigit, text.dropWhile Char.isDigit)

/-- The longest numeral a text starts with, and the rest: digits with an optional point and further
digits, or a point and digits. -/
def splitNumeral? (text : List Char) : Option (List Char × List Char) :=
  let (whole, rest) := splitDigits text
  match rest with
  | '.' :: afterPoint =>
      let (fraction, rest') := splitDigits afterPoint
      if whole.isEmpty && fraction.isEmpty then none
      else some (whole ++ '.' :: fraction, rest')
  | _ => if whole.isEmpty then none else some (whole, rest)

/-- The exponent a text starts with, and the rest. Without a digit there is no exponent. -/
def splitExponent : List Char → List Char × List Char
  | [] => ([], [])
  | mark :: text =>
      if mark == 'e' || mark == 'E' then
        let (sign, unsigned) := splitSign text
        let (digits, rest) := splitDigits unsigned
        if digits.isEmpty then ([], mark :: text) else (mark :: sign ++ digits, rest)
      else ([], mark :: text)

/-- The longest literal a text starts with, and the rest: a numeral with an optional sign before it
and an optional exponent behind it. -/
def splitLiteral? (text : List Char) : Option (List Char × List Char) :=
  let (sign, unsigned) := splitSign text
  (splitNumeral? unsigned).map fun (numeral, rest) =>
    let (exponent, rest') := splitExponent rest
    (sign ++ numeral ++ exponent, rest')

/-! ## The value of a number -/

/-- The number that a run of decimal digits writes. -/
def digitsValue (digits : List Char) : Nat :=
  digits.foldl (fun value c => 10 * value + (c.toNat - '0'.toNat)) 0

/-- Value of a numeral: the digits without the point, moved right by the length of the fraction. -/
def numeralValue (numeral : List Char) : Decimal :=
  let (whole, rest) := splitDigits numeral
  let (fraction, _) := splitDigits (rest.drop 1)
  ⟨digitsValue (whole ++ fraction), -(fraction.length : Int)⟩

/-- Value of an exponent, and zero for none. -/
def exponentValue (exponent : List Char) : Int :=
  let (sign, digits) := splitSign (exponent.drop 1)
  let size : Int := digitsValue digits
  if sign == ['-'] then -size else size

/-- Value of a text that is a literal from its start to its end. -/
def ofLiteral? (text : List Char) : Option Float :=
  let (sign, unsigned) := splitSign text
  match splitNumeral? unsigned with
  | none => none
  | some (numeral, rest) =>
      let (exponent, rest') := splitExponent rest
      if rest'.isEmpty then
        let value := numeralValue numeral
        let size := Decimal.toFloat ⟨value.coefficient, value.exponent + exponentValue exponent⟩
        some (if sign == ['-'] then -size else size)
      else none

/-- The number a text starts with after leading blanks: an infinity, written `Infinity` with an
optional sign, or the longest literal. What follows it does not matter. -/
def leading? (text : List Char) : Option Float :=
  let text := trimStart text
  let (sign, unsigned) := splitSign text
  if (after? "Infinity".toList unsigned).isSome then
    some (if sign == ['-'] then -infinity else infinity)
  else
    match splitLiteral? text with
    | some (literal, _) => ofLiteral? literal
    | none => none

/-! ## The text of a number -/

/-- The fewest digits that read back as the double, in positional notation; negative zero keeps its
sign, and the infinities are `inf` and `-inf`. -/
def plain (x : Float) : String :=
  match Binary.ofFloat? x with
  | none => if x.isNaN then "NaN" else if x < 0.0 then "-inf" else "inf"
  | some b =>
      let digits :=
        if b.significand = 0 then "0"
        else (Decimal.shortest b.significand b.exponent).positional
      if b.negative then "-" ++ digits else digits

/-- The plain form, but with `Infinity` spelled out and no sign on zero. -/
def canonical (x : Float) : String :=
  if x.isNaN then "NaN"
  else if x.isInf then if x > 0.0 then "Infinity" else "-Infinity"
  else if x == 0.0 then "0"
  else plain x

end MarkupPath.Number
