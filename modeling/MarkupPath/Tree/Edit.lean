import MarkupPath.Tree.Walk

/-!
# Editing documents

Creating nodes, moving subtrees and changing contents. An edit that is refused leaves nothing
changed, since a changed document is only returned when it succeeds. Nodes are never destroyed: a
removed subtree stays in the document as a tree of its own.
-/

set_option autoImplicit false

namespace MarkupPath.Tree

open MarkupPath.Markup (Attribute)

namespace Document

/-! ## Parts of edits -/

/-- The document with one node changed. -/
def modify (doc : Document) (id : NodeId) (f : Node → Node) : Document :=
  { doc with nodes := doc.nodes.modify id f }

/-- The document with a new node, which gets the next identity. -/
def push (doc : Document) (n : Node) : Document := { doc with nodes := doc.nodes.push n }

/-- The document with a node taken from its parent, if it has one. -/
def detach (doc : Document) (id : NodeId) : Document :=
  match doc.parent? id with
  | none => doc
  | some parent =>
      (doc.modify id fun n => { n with parent := none }).modify parent
        (Node.mapChildren fun children => children.erase id)

/-- The children with a new one at a position, or at the end if there are fewer. -/
def placeAt (index : Nat) (child : NodeId) (children : List NodeId) : List NodeId :=
  children.take index ++ child :: children.drop index

/-- The document with a root put under a parent, at the place that `place` gives it. The document
element is no longer one once it has a parent. -/
def attach (doc : Document) (parent child : NodeId) (place : List NodeId → List NodeId) :
    Document :=
  let moved := (doc.modify parent (Node.mapChildren place)).modify child
    fun n => { n with parent := some parent }
  if moved.documentElement == some child then { moved with documentElement := none } else moved

/-- The document with a new node as the last child of a parent. -/
def pushChild (doc : Document) (parent : NodeId) (n : Node) : Document :=
  (doc.push n).attach parent doc.size fun children => children ++ [doc.size]

/-! ## Creation -/

/-- The document with a new element that is a root, and the element's identity. -/
def createElement (doc : Document) (spec : ElementSpec) : NodeId × Document :=
  (doc.size, doc.push spec.node)

/-- The document that holds one element, its document element. -/
def withRoot (spec : ElementSpec) : Document :=
  { empty.push spec.node with documentElement := some empty.size }

/-- The document with a new node as the last child of an element. -/
def createUnder (doc : Document) (parent : NodeId) (n : Node) :
    Except TreeError (NodeId × Document) := do
  let _ ← doc.needElement parent
  return (doc.size, doc.pushChild parent n)

/-- The document with a new element as the last child of an element. -/
def createChild (doc : Document) (parent : NodeId) (spec : ElementSpec) :
    Except TreeError (NodeId × Document) :=
  doc.createUnder parent spec.node

/-- The document with a new comment as the last child of an element. -/
def createComment (doc : Document) (parent : NodeId) (body : String) :
    Except TreeError (NodeId × Document) :=
  doc.createUnder parent (Node.ofComment body)

/-- The document with a new CDATA section as the last child of an element. -/
def createCData (doc : Document) (parent : NodeId) (body : String) :
    Except TreeError (NodeId × Document) :=
  doc.createUnder parent (Node.ofCData body)

/-! ## Moving -/

/-- A node may become a child of an element that is neither the node itself nor below it. -/
def checkInsert (doc : Document) (parent child : NodeId) : Except TreeError Unit := do
  let _ ← doc.needElement parent
  let _ ← doc.need child
  if parent == child || doc.isAncestor child parent then throw (.cycle parent child)

/-- The document with a subtree moved to the place among the children of `parent` that `place`
gives it. -/
def move (doc : Document) (parent child : NodeId) (place : List NodeId → List NodeId) :
    Except TreeError Document := do
  doc.checkInsert parent child
  return (doc.detach child).attach parent child place

/-- The document with a subtree moved behind the other children of an element. -/
def appendChild (doc : Document) (parent child : NodeId) : Except TreeError Document :=
  doc.move parent child fun children => children ++ [child]

/-- The document with a subtree moved to a position among the other children of an element. -/
def insertChild (doc : Document) (parent : NodeId) (index : Nat) (child : NodeId) :
    Except TreeError Document :=
  doc.move parent child (placeAt index child)

/-- The document with a subtree made a tree of its own. -/
def remove (doc : Document) (id : NodeId) : Except TreeError Document := do
  let _ ← doc.need id
  return doc.detach id

/-- The document with an element made a root and the document element. -/
def setDocumentElement (doc : Document) (id : NodeId) : Except TreeError Document := do
  let _ ← doc.needElement id
  return { doc.detach id with documentElement := some id }

/-! ## Contents -/

/-- The document with an attribute of an element set, and its previous value. -/
def setAttribute (doc : Document) (id : NodeId) (name value : String) :
    Except TreeError (Option String × Document) := do
  let n ← doc.needElement id
  return (Attribute.lookup n.attributes name,
    doc.modify id (Node.mapAttributes (Tree.setAttribute name value)))

/-- The document with an attribute of an element removed, and its previous value. -/
def removeAttribute (doc : Document) (id : NodeId) (name : String) :
    Except TreeError (Option String × Document) := do
  let n ← doc.needElement id
  return (Attribute.lookup n.attributes name,
    doc.modify id (Node.mapAttributes (Tree.removeAttribute name)))

/-- The document with the own text of a node replaced or dropped, and its previous text. -/
def replaceText (doc : Document) (id : NodeId) (text : Option String) :
    Except TreeError (Option String × Document) := do
  let n ← doc.need id
  return (n.text, doc.modify id fun n => { n with text := text })

/-- The document with the own text of a node replaced, and its previous text. -/
def setText (doc : Document) (id : NodeId) (text : String) :
    Except TreeError (Option String × Document) :=
  doc.replaceText id (some text)

/-- The document with the own text of a node dropped, and its previous text. -/
def clearText (doc : Document) (id : NodeId) : Except TreeError (Option String × Document) :=
  doc.replaceText id none

end Document

end MarkupPath.Tree
