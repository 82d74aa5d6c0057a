import MarkupPath.Markup.Reference
import MarkupPath.Tree.Walk

/-!
# Documents as markup

`Document.print` writes the subtree of a node: an element as its tag, its own text and its children,
a marker as its body between delimiters. With an indentation every tag and marker starts a line of
its own, except at the very start, and an end tag does so only behind children.
-/

set_option autoImplicit false

namespace MarkupPath.Tree

open MarkupPath.Markup

/-- How a subtree is written: the spaces per level, or everything on one line, and whether a
declaration stands in front. -/
structure PrintOptions where
  indent : Option Nat
  declaration : Bool
  deriving DecidableEq, Repr

/-- The declaration of a document. -/
def declarationText : List Char := "<?xml version=\"1.0\" encoding=\"UTF-8\"?>".toList

/-- What is still to be written: a node with its level, or the end tag of an element whose start is
written. -/
inductive Pending where
  | enter (id : NodeId) (level : Nat)
  | close (id : NodeId) (level : Nat)
  deriving DecidableEq, Repr

namespace PrintOptions

/-- The line break before a tag or marker, absent where nothing is written yet. -/
def lineBreak (options : PrintOptions) (started : Bool) (level : Nat) : List Char :=
  match options.indent with
  | some width => if started then '\n' :: List.replicate (width * level) ' ' else []
  | none => []

end PrintOptions

/-- An attribute as it stands in a tag. -/
def attributeText (a : Attribute) : List Char :=
  ' ' :: a.name.toList ++ "=\"".toList ++ Reference.escapeAttribute a.value.toList ++ ['"']

/-- A tag that opens an element, up to its closing delimiter. -/
def openText (n : Node) : List Char :=
  '<' :: n.name.toList ++ n.attributes.flatMap attributeText

/-- A tag that closes an element. -/
def closeText (name : String) : List Char := "</".toList ++ name.toList ++ ['>']

/-- A node up to where its children stand; a node without children is written whole. -/
def nodeText (n : Node) : List Char :=
  match n.kind with
  | .comment => "<!--".toList ++ (n.text.getD "").toList ++ "-->".toList
  | .cdata => "<![CDATA[".toList ++ (n.text.getD "").toList ++ "]]>".toList
  | .element =>
      match n.text, n.children with
      | none, [] => openText n ++ "/>".toList
      | some text, [] =>
          openText n ++ '>' :: Reference.escapeText text.toList ++ closeText n.name
      | text, _ :: _ => openText n ++ '>' :: Reference.escapeText (text.getD "").toList

namespace Document

/-- What a stack of pending parts writes, in at most `fuel` steps. -/
def printFrom (doc : Document) (options : PrintOptions) :
    Nat → Bool → List Pending → List Char
  | _, _, [] => []
  | 0, _, _ :: _ => []
  | fuel + 1, started, .close id level :: stack =>
      options.lineBreak started level ++ closeText ((doc.name? id).getD "") ++
        doc.printFrom options fuel true stack
  | fuel + 1, started, .enter id level :: stack =>
      match doc.node? id with
      | none => doc.printFrom options fuel started stack
      | some n =>
          -- an element without children is closed by `nodeText` already
          let below := n.children.map fun child => Pending.enter child (level + 1)
          let behind := if n.children.isEmpty then stack else .close id level :: stack
          options.lineBreak started level ++ nodeText n ++
            doc.printFrom options fuel true (below ++ behind)

/-- The subtree of a node as markup. -/
def print (doc : Document) (options : PrintOptions) (id : NodeId) : List Char :=
  (if options.declaration then declarationText else []) ++
    doc.printFrom options (2 * doc.size) options.declaration [.enter id 0]

/-- The subtree of a node as markup, for a known node. -/
def toMarkup (doc : Document) (options : PrintOptions) (id : NodeId) :
    Except TreeError String := do
  let _ ← doc.need id
  return String.ofList (doc.print options id)

end Document

end MarkupPath.Tree
