import MarkupPath.Markup.Attribute

/-!
# Markup events

A marked-up text is a sequence of events: tags, stretches of text, comments and the like. This file
holds the events, their places in the text, and everything that can be wrong with a text, be it in a
single piece of markup or in the way the tags nest. `ReadError.message` words each fault.
-/

set_option autoImplicit false

namespace MarkupPath.Markup

/-- A piece of markup, or the text up to the next one. Texts and attribute values have their
references expanded, all else is as written. -/
inductive Event where
  | startTag (name : String) (attributes : List Attribute)
  | emptyTag (name : String) (attributes : List Attribute)
  | endTag (name : String)
  | text (content : String)
  | cdata (content : String)
  | comment (content : String)
  | instruction (target : String) (data : Option String)
  | declaration
  | doctype (content : String)
  deriving DecidableEq, Repr

/-- The attributes of a tag that opens an element. -/
def Event.attributes : Event → List Attribute
  | .startTag _ attributes => attributes
  | .emptyTag _ attributes => attributes
  | _ => []

/-- An event with the bytes it reaches from and to. -/
structure Located where
  event : Event
  start : Nat
  stop : Nat
  deriving DecidableEq, Repr

/-! ## Faults -/

/-- What can be wrong with a marked-up text. -/
inductive ReadFault where
  | openComment
  | openCData
  | openDoctype
  | openInstruction
  | openTag
  | openEndTag
  | instructionTarget
  | startTagName
  | endTagName
  | nameCharacter
  | attribute (fault : AttributeFault)
  | unexpectedEnd (name : String)
  | mismatchedEnd (expected found : String)
  | textOutside
  | cdataOutside
  | secondRoot
  | unclosed (name : String)
  | noRoot
  deriving DecidableEq, Repr

/-- The fault in words. -/
def ReadFault.message : ReadFault → String
  | .openComment => "unterminated comment"
  | .openCData => "unterminated CDATA section"
  | .openDoctype => "unterminated DOCTYPE"
  | .openInstruction => "unterminated processing instruction"
  | .openTag => "unterminated start tag"
  | .openEndTag => "expected '>' to close end tag"
  | .instructionTarget => "processing instruction without target"
  | .startTagName => "expected element name after '<'"
  | .endTagName => "expected element name after '</'"
  | .nameCharacter => "invalid character in element name"
  | .attribute fault => fault.message
  | .unexpectedEnd name => "unexpected end tag </" ++ name ++ ">"
  | .mismatchedEnd expected found =>
      "mismatched end tag: expected </" ++ expected ++ ">, found </" ++ found ++ ">"
  | .textOutside => "text outside the root element"
  | .cdataOutside => "CDATA outside the root element"
  | .secondRoot => "multiple root elements"
  | .unclosed name => "unclosed element <" ++ name ++ ">"
  | .noRoot => "no root element"

/-- A fault and the byte at which it shows. -/
structure ReadError where
  fault : ReadFault
  offset : Nat
  deriving DecidableEq, Repr

/-- The error in words. -/
def ReadError.message (e : ReadError) : String :=
  "malformed XML at byte " ++ toString e.offset ++ ": " ++ e.fault.message

/-- The events of a text up to its end or to the first fault. -/
structure Transcript where
  events : List Located
  failure : Option ReadError
  deriving DecidableEq, Repr

end MarkupPath.Markup
