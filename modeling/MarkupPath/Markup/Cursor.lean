import MarkupPath.Markup.Event.Read

/-!
# Byte cursors

A `Cursor` stands at any byte of a text, also inside a character, and looks for the delimiters of
markup from there. Its movements are clamped to the end of the text. Inside a character a search
starts with the next whole one, and neither a blank nor a name can stand there.
-/

set_option autoImplicit false

namespace MarkupPath.Markup

open MarkupPath.Text

/-- A byte position in a text. -/
structure Cursor where
  text : List Char
  offset : Nat
  deriving DecidableEq, Repr

namespace Cursor

/-- The cursor before the first byte. -/
def start (text : List Char) : Cursor := ⟨text, 0⟩

/-- The place of the first whole character at the byte `target` or behind it. -/
def placeAt (target : Nat) : List Char → Nat → Place
  | [], offset => ⟨offset, []⟩
  | c :: rest, offset =>
      if offset < target then placeAt target rest (offset + c.utf8Size) else ⟨offset, c :: rest⟩

/-- The place of the first whole character at the cursor or behind it. -/
def place (c : Cursor) : Place := placeAt c.offset c.text 0

/-- The cursor stands between two characters. -/
def onBoundary (c : Cursor) : Bool := c.place.offset == c.offset

/-- Nothing is left. -/
def isAtEnd (c : Cursor) : Bool := byteLength c.text ≤ c.offset

/-- The byte at the cursor. -/
def peek (c : Cursor) : Option UInt8 := (c.text.flatMap String.utf8EncodeChar)[c.offset]?

/-- The cursor at a byte, or at the end if the text is shorter. -/
def seek (c : Cursor) (offset : Nat) : Cursor := { c with offset := min offset (byteLength c.text) }

/-- The cursor a number of bytes further on. -/
def advance (c : Cursor) (count : Nat) : Cursor := c.seek (c.offset + count)

/-- The text goes on with `mark`. -/
def startsWith (c : Cursor) (mark : List Char) : Bool := (c.place.after? mark).isSome

/-- The cursor behind the blanks that stand here. -/
def skipBlanks (c : Cursor) : Cursor :=
  if c.onBoundary then c.seek (c.place.skipWhile isMarkupBlank).offset else c

/-- Byte of the next `<`, or of the end of the text. -/
def nextMarkup (c : Cursor) : Nat := (c.place.skipWhile (· != '<')).offset

/-- Byte of the next occurrence of `mark`. -/
def find (c : Cursor) (mark : List Char) : Option Nat :=
  if mark.isEmpty then some c.offset
  else (cut? mark c.place.rest).map fun halves => c.place.offset + byteLength halves.1

/-- Byte of the next `>` outside quotes. -/
def findTagEnd (c : Cursor) : Option Nat :=
  (Event.splitTag? none c.place.rest).map fun halves => c.place.offset + byteLength halves.1

/-- The name that stands here, and the cursor behind it. -/
def name? (c : Cursor) : Option (List Char × Cursor) :=
  if c.onBoundary then (Name.read? c.place).map fun found => (found.1, c.seek found.2.offset)
  else none

end Cursor

end MarkupPath.Markup
