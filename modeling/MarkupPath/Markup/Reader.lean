import MarkupPath.Markup.Cursor
import MarkupPath.Text.Bytes

/-!
# Reading bytes

The reader that keeps a text in UTF-8. It looks for delimiters byte by byte, jumps to the positions
that it computes from what it finds, and takes slices between them; a slice that is none, or a byte
behind the end, stops it with a panic. A `Run` records the positions that a cursor has held and all
slices that were asked for, also when it fails. `nextEvent` reads one event, and `session` asks for
events until there are no more.
-/

set_option autoImplicit false

namespace MarkupPath.Markup

open MarkupPath.Text

/-! ## Runs -/

/-- What a program does with positions in a text: a cursor holds one, or a slice between two of them
is asked for. -/
inductive Access where
  | position (text : List Char) (offset : Nat)
  | slice (text : List Char) (start stop : Nat)
  deriving DecidableEq, Repr

/-- Why a program stops before its end: it finds a fault, it panics, or a loop takes more rounds
than it has bytes to read. -/
inductive Halt (ε : Type) where
  | fault (e : ε)
  | panic
  | endless
  deriving DecidableEq, Repr

/-- A program that has run: what it has done with positions, and its result. -/
structure Run (ε α : Type) where
  accesses : List Access
  result : Except (Halt ε) α

namespace Run

variable {ε ε' α β : Type}

/-- The second program runs on the result of the first, if there is one. -/
def bind (m : Run ε α) (f : α → Run ε β) : Run ε β :=
  match m.result with
  | .ok a => ⟨m.accesses ++ (f a).accesses, (f a).result⟩
  | .error why => ⟨m.accesses, .error why⟩

instance : Monad (Run ε) where
  pure a := ⟨[], .ok a⟩
  bind := bind

/-- The program that stops for a reason. -/
def halt (why : Halt ε) : Run ε α := ⟨[], .error why⟩

/-- The program that finds a fault. -/
def fail (e : ε) : Run ε α := halt (.fault e)

/-- The value, or a panic if there is none. -/
def unwrap : Option α → Run ε α
  | some a => ⟨[], .ok a⟩
  | none => halt .panic

/-- The program with its fault replaced. -/
def mapFault (f : ε → ε') (m : Run ε α) : Run ε' α :=
  ⟨m.accesses, m.result.mapError fun
    | .fault e => .fault (f e)
    | .panic => .panic
    | .endless => .endless⟩

end Run

namespace Reader

variable {ε : Type}

/-! ## Positions and slices -/

/-- A cursor that is held from now on. -/
def hold (c : Cursor) : Run ε Cursor := ⟨[.position c.text c.offset], .ok c⟩

/-- The text between two bytes; there has to be one. -/
def slice (text : List Char) (start stop : Nat) : Run ε (List Char) := do
  Run.mk [.slice text start stop] (.ok ())
  Run.unwrap (slice? text start stop)

/-- The bytes of a text from a position on, which may not be behind the end. -/
def bytesFrom (text : List Char) (start : Nat) : Run ε (List UInt8) := do
  Run.mk [.slice text start (byteLength text)] (.ok ())
  if start ≤ byteLength text then return (utf8 text).drop start else Run.halt .panic

/-! ## Delimiters -/

/-- The byte of a blank between the parts of a tag. -/
def isBlankByte (b : UInt8) : Bool :=
  b == ' '.toUInt8 || b == '\t'.toUInt8 || b == '\n'.toUInt8 || b == '\r'.toUInt8

/-- A byte that a name may start with. -/
def isStartByte (b : UInt8) : Bool :=
  ('A'.toUInt8 ≤ b && b ≤ 'Z'.toUInt8) || ('a'.toUInt8 ≤ b && b ≤ 'z'.toUInt8)
    || b == '_'.toUInt8 || b == ':'.toUInt8 || 0x80 ≤ b

/-- A byte that a name may go on with. -/
def isPartByte (b : UInt8) : Bool :=
  isStartByte b || ('0'.toUInt8 ≤ b && b ≤ '9'.toUInt8) || b == '-'.toUInt8 || b == '.'.toUInt8

/-- The text goes on with `mark` at the cursor. -/
def startsWith (c : Cursor) (mark : String) : Run ε Bool := do
  let rest ← slice c.text c.offset (byteLength c.text)
  return (after? mark.toList rest).isSome

/-- The cursor behind the blanks among `bytes`, which stand at the cursor. -/
def skipBlanksOf : List UInt8 → Cursor → Run ε Cursor
  | [], c => pure c
  | b :: rest, c =>
      if isBlankByte b then do
        let c ← hold { c with offset := c.offset + 1 }
        skipBlanksOf rest c
      else pure c

/-- The cursor behind the blanks that stand here. -/
def skipBlanks (c : Cursor) : Run ε Cursor := skipBlanksOf ((utf8 c.text).drop c.offset) c

/-- Byte of the next `<`, or of the end of the text. -/
def nextMarkup (c : Cursor) : Run ε Nat := do
  let rest ← bytesFrom c.text c.offset
  match rest.findIdx? (· == '<'.toUInt8) with
  | some i => return c.offset + i
  | none => return byteLength c.text

/-- Byte of the next occurrence of `mark`. -/
def find (c : Cursor) (mark : String) : Run ε (Option Nat) := do
  let rest ← bytesFrom c.text c.offset
  return (indexOf? (utf8 mark.toList) rest).map (c.offset + ·)

/-- The open quote behind a byte of a tag; the tag ends at a `>` outside quotes. -/
def tagStep (quote : Option UInt8) (b : UInt8) : Option (Option UInt8) :=
  match quote with
  | none =>
      if b == '"'.toUInt8 || b == '\''.toUInt8 then some (some b)
      else if b == '>'.toUInt8 then none
      else some none
  | some mark => if mark == b then some none else some (some mark)

/-- Byte of the next `>` outside quotes. -/
def findTagEnd (c : Cursor) : Run ε (Option Nat) := do
  let rest ← bytesFrom c.text c.offset
  return (stopIndex? tagStep none rest).map (c.offset + ·)

/-- The name that stands at the cursor, and the cursor behind it. -/
def readName (c : Cursor) : Run ε (Option (List Char × Cursor)) :=
  match c.peek with
  | none => return none
  | some first =>
      if isStartByte first then do
        let rest ← bytesFrom c.text c.offset
        let count := (rest.findIdx? fun b => !isPartByte b).getD rest.length
        let behind ← hold { c with offset := c.offset + count }
        let name ← slice c.text c.offset behind.offset
        return some (name, behind)
      else return none

/-! ## References -/

/-- The character that the reference at an ampersand stands for, and the number of bytes from there
to its semicolon. -/
def readReference (text : List Char) (ampersand : Nat) : Run ε (Option (Char × Nat)) := do
  let rest ← bytesFrom text ampersand
  match rest.findIdx? (· == ';'.toUInt8) with
  | none => return none
  | some count => do
      let body ← slice text (ampersand + 1) (ampersand + count)
      return (Reference.charOf? body).map fun c => (c, count)

/-- The text from a byte on with its references replaced. -/
def expandFrom (text : List Char) (offset : Nat) : Run ε (List Char) :=
  if offset < byteLength text then do
    let rest ← bytesFrom text offset
    match rest.findIdx? (· == '&'.toUInt8) with
    | none => slice text offset (byteLength text)
    | some i => do
        let plain ← slice text offset (offset + i)
        let found ← readReference text (offset + i)
        match found with
        | some (c, count) => do
            let later ← expandFrom text (offset + i + (count + 1))
            return plain ++ c :: later
        | none => do
            let later ← expandFrom text (offset + i + 1)
            return plain ++ '&' :: later
  else return []
termination_by byteLength text - offset

/-- The text with its references replaced; without an ampersand it is left alone. -/
def expand (text : List Char) : Run ε String :=
  match (utf8 text).findIdx? (· == '&'.toUInt8) with
  | none => return String.ofList text
  | some _ => String.ofList <$> expandFrom text 0

/-! ## Attributes -/

/-- The bytes between which the quoted value at the cursor stands. -/
def findValue (c : Cursor) : Run AttributeError (Nat × Nat) :=
  match c.peek with
  | none => Run.fail ⟨.quote, c.offset⟩
  | some quote =>
      if quote == '"'.toUInt8 || quote == '\''.toUInt8 then do
        let start := c.offset + 1
        let rest ← bytesFrom c.text start
        match rest.findIdx? fun b => b == quote || b == '<'.toUInt8 with
        | none => Run.fail ⟨.openQuote, c.offset⟩
        | some i => do
            let stop ← Run.unwrap rest[i]?
            if stop == quote then return (start, start + i)
            else Run.fail ⟨.tagInValue, start + i⟩
      else Run.fail ⟨.quote, c.offset⟩

/-- The attribute that stands at the cursor, whose name is not among those known, and the cursor
behind it. -/
def readAttribute (known : List Attribute) (c : Cursor) : Run AttributeError (Attribute × Cursor) :=
  do
    let nameStart := c.offset
    match ← readName c with
    | none => Run.fail ⟨.name, nameStart⟩
    | some (name, c) => do
        let c ← skipBlanks c
        if c.peek != some '='.toUInt8 then Run.fail ⟨.value, c.offset⟩
        else
          let c ← hold (c.advance 1)
          let c ← skipBlanks c
          let (start, stop) ← findValue c
          let name := String.ofList name
          if known.any fun a => a.name == name then Run.fail ⟨.duplicate, nameStart⟩
          else
            let written ← slice c.text start stop
            let value ← expand written
            let behind ← hold (c.seek (stop + 1))
            return (⟨name, value⟩, behind)

/-- The attributes from the cursor to the end of the text, behind those already read, in a number of
rounds. -/
def readAttributesFrom : Nat → List Attribute → Cursor → Run AttributeError (List Attribute)
  | 0, _, _ => Run.halt .endless
  | rounds + 1, known, c => do
      let c ← skipBlanks c
      if c.isAtEnd then return known
      else
        let (found, behind) ← readAttribute known c
        readAttributesFrom rounds (known ++ [found]) behind

/-- The attributes that a text lists. -/
def readAttributes (text : List Char) : Run AttributeError (List Attribute) := do
  let c ← hold (Cursor.start text)
  readAttributesFrom (byteLength text + 1) [] c

/-! ## Events -/

/-- An event with one content, which opens at `start` with a number of bytes and goes up to
`close`. -/
def readDelimited (c : Cursor) (start openLength : Nat) (close : String) (fault : ReadFault)
    (event : String → Event) : Run ReadError (Event × Cursor) := do
  let inside ← hold (c.advance openLength)
  match ← find inside close with
  | none => Run.fail ⟨fault, start⟩
  | some stop => do
      let content ← slice c.text (start + openLength) stop
      let behind ← hold (inside.seek (stop + byteLength close.toList))
      return (event (String.ofList content), behind)

/-- The depth of brackets behind a byte of a document type declaration, which ends at a `>` outside
brackets. -/
def doctypeStep (depth : Nat) (b : UInt8) : Option Nat :=
  if b == '['.toUInt8 then some (depth + 1)
  else if b == ']'.toUInt8 then some (depth - 1)
  else if b == '>'.toUInt8 && depth == 0 then none
  else some depth

/-- A document type declaration, whose content is kept with its delimiters. -/
def readDoctype (c : Cursor) (start : Nat) : Run ReadError (Event × Cursor) :=
  match stopIndex? doctypeStep 0 ((utf8 c.text).drop (start + 9)) with
  | none => Run.fail ⟨.openDoctype, start⟩
  | some i => do
      let stop := start + 9 + i
      let behind ← hold (c.seek (stop + 1))
      let content ← slice c.text start (stop + 1)
      return (.doctype (String.ofList content), behind)

/-- A processing instruction, or the declaration of the document. -/
def readInstruction (c : Cursor) (start : Nat) : Run ReadError (Event × Cursor) := do
  let c ← hold (c.advance 2)
  match ← readName c with
  | none => Run.fail ⟨.instructionTarget, start⟩
  | some (target, c) =>
      match ← find c "?>" with
      | none => Run.fail ⟨.openInstruction, start⟩
      | some stop => do
          let content ← slice c.text c.offset stop
          let data := trim content
          let behind ← hold (c.seek (stop + 2))
          if target.map Char.toLower == "xml".toList then return (.declaration, behind)
          else
            return (.instruction (String.ofList target)
              (if data.isEmpty then none else some (String.ofList data)), behind)

/-- An end tag: a name and optional blanks. -/
def readEndTag (c : Cursor) : Run ReadError (Event × Cursor) := do
  let c ← hold (c.advance 2)
  match ← readName c with
  | none => Run.fail ⟨.endTagName, c.offset⟩
  | some (name, c) => do
      let c ← skipBlanks c
      if c.peek != some '>'.toUInt8 then Run.fail ⟨.openEndTag, c.offset⟩
      else
        let behind ← hold (c.advance 1)
        return (.endTag (String.ofList name), behind)

/-- The byte before `stop` is a slash, and it is not before `start`. -/
def endsWithSlash (text : List Char) (start stop : Nat) : Run ε Bool :=
  if start < stop then do
    let b ← Run.unwrap (utf8 text)[stop - 1]?
    return b == '/'.toUInt8
  else return false

/-- A tag that opens an element, up to the first `>` outside quotes. -/
def readStartTag (c : Cursor) (start : Nat) : Run ReadError (Event × Cursor) := do
  let c ← hold (c.advance 1)
  match ← readName c with
  | none => Run.fail ⟨.startTagName, c.offset⟩
  | some (name, c) =>
      match ← findTagEnd c with
      | none => Run.fail ⟨.openTag, start⟩
      | some stop => do
          let empty ← endsWithSlash c.text c.offset stop
          let listed ← slice c.text c.offset (if empty then stop - 1 else stop)
          if listed.head?.any fun c => !isAsciiBlank c then
            Run.fail ⟨.nameCharacter, c.offset⟩
          else
            let attributes ← (readAttributes listed).mapFault fun e =>
              ReadError.mk (.attribute e.fault) (c.offset + e.offset)
            let behind ← hold (c.seek (stop + 1))
            let name := String.ofList name
            return (if empty then .emptyTag name attributes else .startTag name attributes, behind)

/-- The markup at the cursor, told by the characters it opens with, and the cursor behind it. -/
def readMarkup (c : Cursor) : Run ReadError (Event × Cursor) := do
  let start := c.offset
  if ← startsWith c "<!--" then readDelimited c start 4 "-->" .openComment .comment
  else if ← startsWith c "<![CDATA[" then readDelimited c start 9 "]]>" .openCData .cdata
  else if ← startsWith c "<!DOCTYPE" then readDoctype c start
  else if ← startsWith c "<?" then readInstruction c start
  else if ← startsWith c "</" then readEndTag c
  else readStartTag c start

/-- The text at the cursor, up to the next markup, and the cursor behind it. -/
def readText (c : Cursor) : Run ReadError (Event × Cursor) := do
  let stop ← nextMarkup c
  let behind ← hold (c.seek stop)
  let content ← slice c.text c.offset stop
  let expanded ← expand content
  return (.text expanded, behind)

/-- The event at the cursor, and the cursor behind it. -/
def readEvent (c : Cursor) : Run ReadError (Event × Cursor) :=
  if c.peek != some '<'.toUInt8 then readText c else readMarkup c

/-- The event at the cursor, and the cursor behind it; none at the end of the text. -/
def nextEvent (c : Cursor) : Run ReadError (Option Event × Cursor) := do
  if c.isAtEnd then return (none, c)
  else
    let (event, behind) ← readEvent c
    return (some event, behind)

/-! ## Sessions -/

/-- How asking for events comes to an end: none is left, and the cursor stands at a byte; the reader
stops; or more events may follow. -/
inductive Ending where
  | atEnd (offset : Nat)
  | halted (why : Halt ReadError)
  | more
  deriving DecidableEq, Repr

/-- All that a reader has done: with positions, and the events it has given. -/
structure Session where
  accesses : List Access
  events : List Located
  ending : Ending
  deriving DecidableEq, Repr

/-- The events from a cursor on, in a number of calls at most. -/
def sessionFrom : Nat → Cursor → Session
  | 0, c => ⟨[.position c.text c.offset], [], .more⟩
  | calls + 1, c =>
      let call := nextEvent c
      let accesses := .position c.text c.offset :: call.accesses
      match call.result with
      | .error why => ⟨accesses, [], .halted why⟩
      | .ok (none, behind) => ⟨accesses, [], .atEnd behind.offset⟩
      | .ok (some event, behind) =>
          let later := sessionFrom calls behind
          ⟨accesses ++ later.accesses, ⟨event, c.offset, behind.offset⟩ :: later.events,
            later.ending⟩

/-- The events of a text, in a number of calls at most. -/
def session (calls : Nat) (text : List Char) : Session := sessionFrom calls (Cursor.start text)

end Reader

end MarkupPath.Markup
