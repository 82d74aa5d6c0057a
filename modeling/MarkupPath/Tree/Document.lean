import MarkupPath.Number.Text
import MarkupPath.Text.Truth
import MarkupPath.Tree.Node

/-!
# Documents

A document holds every node it ever created, in order of creation. Attached nodes form trees by
their children and parents; a node without a parent is the root of its own tree, and one of the root
elements may be the document element. The views below answer for unknown nodes too, as for a node
that has nothing.
-/

set_option autoImplicit false

namespace MarkupPath.Tree

open MarkupPath.Markup (Attribute)

/-- A document: its nodes and the element that queries start from. -/
structure Document where
  nodes : Array Node
  documentElement : Option NodeId
  deriving DecidableEq, Repr

namespace Document

/-- The document without nodes. -/
def empty : Document := ⟨#[], none⟩

/-- Number of nodes ever created. -/
def size (doc : Document) : Nat := doc.nodes.size

/-- The node, if the document has it. -/
def node? (doc : Document) (id : NodeId) : Option Node := doc.nodes[id]?

/-- The document has the node. -/
def contains (doc : Document) (id : NodeId) : Bool := id < doc.size

/-- Kind of a node. -/
def kind? (doc : Document) (id : NodeId) : Option NodeKind := (doc.node? id).map Node.kind

/-- The node is known and an element. -/
def isElement (doc : Document) (id : NodeId) : Bool := doc.kind? id == some .element

/-- Name of a node as written. -/
def name? (doc : Document) (id : NodeId) : Option String := (doc.node? id).map Node.name

/-- Local name of a node. -/
def localName? (doc : Document) (id : NodeId) : Option String := (doc.node? id).map Node.localName

/-- Own text of a node. -/
def text? (doc : Document) (id : NodeId) : Option String := (doc.node? id).bind Node.text

/-- Attributes of a node. -/
def attributes (doc : Document) (id : NodeId) : List Attribute :=
  match doc.node? id with
  | some n => n.attributes
  | none => []

/-- Children of a node. -/
def children (doc : Document) (id : NodeId) : List NodeId :=
  match doc.node? id with
  | some n => n.children
  | none => []

/-- Parent of a node. -/
def parent? (doc : Document) (id : NodeId) : Option NodeId := (doc.node? id).bind Node.parent

/-- Value of an attribute of a node. -/
def attribute? (doc : Document) (id : NodeId) (name : String) : Option String :=
  Attribute.lookup (doc.attributes id) name

/-- The number that the own text of a node starts with. -/
def number? (doc : Document) (id : NodeId) : Option Float :=
  (doc.text? id).bind fun text => Number.leading? text.toList

/-- The truth value that the own text of a node writes. -/
def truth? (doc : Document) (id : NodeId) : Option Bool :=
  (doc.text? id).bind fun text => Text.truth? text.toList

/-- The nodes without a parent, in order of creation. -/
def roots (doc : Document) : List NodeId :=
  (List.range doc.size).filter fun id => (doc.parent? id).isNone

end Document

/-! ## Faults -/

/-- Why a tree cannot be changed. -/
inductive TreeError where
  | unknownNode (id : NodeId)
  | cycle (parent child : NodeId)
  | notAnElement (id : NodeId)
  deriving DecidableEq, Repr

/-- The error in words. -/
def TreeError.message : TreeError → String
  | .unknownNode id => "node " ++ id.label ++ " does not belong to this document"
  | .cycle parent child =>
      "inserting node " ++ child.label ++ " under " ++ parent.label ++ " would create a cycle"
  | .notAnElement id => "node " ++ id.label ++ " is not an element"

namespace Document

/-- The node, or the fault that it is unknown. -/
def need (doc : Document) (id : NodeId) : Except TreeError Node :=
  match doc.node? id with
  | some n => .ok n
  | none => .error (.unknownNode id)

/-- The node, or the fault that it is unknown or a marker. -/
def needElement (doc : Document) (id : NodeId) : Except TreeError Node :=
  match doc.node? id with
  | some n => if n.isElement then .ok n else .error (.notAnElement id)
  | none => .error (.unknownNode id)

end Document

end MarkupPath.Tree
