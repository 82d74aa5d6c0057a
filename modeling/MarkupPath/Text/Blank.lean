/-!
# Blank characters

Three classes of blank characters, each with its own place: `isMarkupBlank` between the parts of a
tag, `isAsciiBlank` where a text counts as empty layout, and `isBlank` in expressions and in the
text of numbers. Each is contained in the next.
-/

set_option autoImplicit false

namespace MarkupPath.Text

/-- Space, tab, line feed and carriage return. -/
def isMarkupBlank (c : Char) : Bool :=
  c == ' ' || c == '\t' || c == '\n' || c == '\r'

/-- The blanks of markup, and form feed. -/
def isAsciiBlank (c : Char) : Bool :=
  isMarkupBlank c || c == '\x0c'

/-- The code points with the Unicode property `White_Space`. -/
def isBlank (c : Char) : Bool :=
  let n := c.toNat
  (0x9 ≤ n && n ≤ 0xD) || n == 0x20 || n == 0x85 || n == 0xA0 || n == 0x1680
    || (0x2000 ≤ n && n ≤ 0x200A) || n == 0x2028 || n == 0x2029 || n == 0x202F || n == 0x205F
    || n == 0x3000

/-! ## Trimming -/

/-- The text without the blanks it starts with. -/
def trimStart (text : List Char) : List Char := text.dropWhile isBlank

/-- The text without the blanks it ends with. -/
def trimEnd (text : List Char) : List Char := (text.reverse.dropWhile isBlank).reverse

/-- The text without the blanks at its two ends. -/
def trim (text : List Char) : List Char := trimEnd (trimStart text)

end MarkupPath.Text
