import MarkupPath.Markup.Event.Read
import MarkupPath.Tree.Edit

/-!
# Documents from markup

`Assembly` is a document under construction: the tags still open, innermost first, and the root
seen. `Assembly.step` adds one event, and `Document.ofMarkup` reads a whole text. Of a fault in how
the events nest and a later one in the text itself, the earlier is reported.
-/

set_option autoImplicit false

namespace MarkupPath.Tree

open MarkupPath.Markup MarkupPath.Text

/-- Which markers become nodes. A comment that does not is dropped, and the text of a CDATA section
that does not is joined to the text around it. -/
structure ReadOptions where
  keepComments : Bool
  keepCData : Bool
  deriving DecidableEq, Repr

/-- Neither comments nor CDATA sections become nodes. -/
def ReadOptions.default : ReadOptions := ⟨false, false⟩

/-- A document under construction: each open element with the byte at which its tag starts,
innermost first, and the root element once it is seen. -/
structure Assembly where
  document : Document
  opened : List (NodeId × Nat)
  root : Option NodeId
  deriving DecidableEq, Repr

namespace Assembly

/-- Nothing is read. -/
def start : Assembly := ⟨Document.empty, [], none⟩

/-- The construction with a new element under the innermost open one, or as the root. -/
def addElement (a : Assembly) (spec : ElementSpec) (offset : Nat) : Except ReadError Assembly :=
  match a.opened, a.root with
  | (parent, _) :: _, _ => .ok { a with document := a.document.pushChild parent spec.node }
  | [], some _ => .error ⟨.secondRoot, offset⟩
  | [], none =>
      .ok { a with document := a.document.push spec.node, root := some a.document.size }

/-- The construction with text behind the own text of an element. -/
def addText (a : Assembly) (id : NodeId) (segment : String) : Assembly :=
  { a with
    document := a.document.modify id fun n => { n with text := some (n.text.getD "" ++ segment) } }

/-- The construction with one more event. -/
def step (options : ReadOptions) (a : Assembly) (e : Located) : Except ReadError Assembly :=
  match e.event with
  | .startTag name attributes => do
      let next ← a.addElement ⟨name, attributes, none⟩ e.start
      return { next with opened := (a.document.size, e.start) :: next.opened }
  | .emptyTag name attributes => a.addElement ⟨name, attributes, none⟩ e.start
  | .endTag name =>
      match a.opened with
      | [] => .error ⟨.unexpectedEnd name, e.start⟩
      | (id, _) :: opened =>
          let expected := (a.document.name? id).getD ""
          if expected == name then .ok { a with opened := opened }
          else .error ⟨.mismatchedEnd expected name, e.start⟩
  | .text content =>
      if content.toList.all isAsciiBlank then .ok a
      else
        match a.opened with
        | (id, _) :: _ => .ok (a.addText id content)
        | [] => .error ⟨.textOutside, e.start⟩
  | .cdata content =>
      match a.opened with
      | (id, _) :: _ =>
          if options.keepCData then
            .ok { a with document := a.document.pushChild id (Node.ofCData content) }
          else .ok (a.addText id content)
      | [] => .error ⟨.cdataOutside, e.start⟩
  | .comment content =>
      match a.opened with
      | (id, _) :: _ =>
          if options.keepComments then
            .ok { a with document := a.document.pushChild id (Node.ofComment content) }
          else .ok a
      | [] => .ok a
  | .instruction _ _ => .ok a
  | .declaration => .ok a
  | .doctype _ => .ok a

/-- The finished document, given the byte at which the text ends. -/
def finish (a : Assembly) (stop : Nat) : Except ReadError Document :=
  match a.opened, a.root with
  | (id, offset) :: _, _ => .error ⟨.unclosed ((a.document.name? id).getD ""), offset⟩
  | [], none => .error ⟨.noRoot, stop⟩
  | [], some root => .ok { a.document with documentElement := some root }

end Assembly

/-- The document that a text writes. -/
def Document.ofMarkup (options : ReadOptions) (text : List Char) : Except ReadError Document := do
  let reading := transcript text
  let a ← reading.events.foldlM (Assembly.step options) Assembly.start
  match reading.failure with
  | some e => throw e
  | none => a.finish (byteLength text)

end MarkupPath.Tree
