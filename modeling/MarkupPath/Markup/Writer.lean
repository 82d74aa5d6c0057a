import MarkupPath.Markup.Reader

/-!
# Writing bytes

The writer that keeps a text in UTF-8. It looks at one byte after another, and where one has to be
replaced by a reference it copies the bytes between the one replaced before and this one as a slice.
Like the reader it panics at a slice that is none.
-/

set_option autoImplicit false

namespace MarkupPath.Markup.Writer

open MarkupPath.Text

variable {ε : Type}

/-- What is written in place of a byte. A quotation mark is replaced on demand. -/
def replacement? (quotes : Bool) (b : UInt8) : Option String :=
  if b == '<'.toUInt8 then some "&lt;"
  else if b == '>'.toUInt8 then some "&gt;"
  else if b == '&'.toUInt8 then some "&amp;"
  else if b == '"'.toUInt8 && quotes then some "&quot;"
  else none

/-- The text from the byte `copied` on with its bytes replaced. All before `offset` are left alone;
the given ones, which stand there, are still to be looked at. -/
def escapeFrom (quotes : Bool) (text : List Char) : List UInt8 → Nat → Nat → Run ε (List Char)
  | [], _, copied => Reader.slice text copied (byteLength text)
  | b :: rest, offset, copied =>
      match replacement? quotes b with
      | none => escapeFrom quotes text rest (offset + 1) copied
      | some reference => do
          let plain ← Reader.slice text copied offset
          let later ← escapeFrom quotes text rest (offset + 1) (offset + 1)
          return plain ++ (reference.toList ++ later)

/-- The text with its bytes replaced; without one to replace it is left alone. -/
def escape (quotes : Bool) (text : List Char) : Run ε (List Char) :=
  match (utf8 text).findIdx? fun b => (replacement? quotes b).isSome with
  | none => return text
  | some first => escapeFrom quotes text ((utf8 text).drop first) first 0

end MarkupPath.Markup.Writer
