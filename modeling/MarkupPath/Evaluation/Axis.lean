import MarkupPath.Query.Expr
import MarkupPath.Tree.Walk

/-!
# Axes

Where a step leads: to a node itself, its children, its parent, or its whole subtree. Absolute paths
start at the virtual document, whose children are the roots of the evaluation. Only elements are
ever reached.
-/

set_option autoImplicit false

namespace MarkupPath.Evaluation

open MarkupPath.Query MarkupPath.Tree

/-- Where a step starts: the virtual document above the roots, or a node. -/
inductive Item where
  | document
  | node (id : NodeId)
  deriving DecidableEq, Repr

/-- The node, unless the item is the document. -/
def Item.node? : Item → Option NodeId
  | .document => none
  | .node id => some id

/-- The elements on an axis, in document order below a node and in the order of the roots below the
document. -/
def navigate (doc : Document) (roots : List NodeId) : Axis → Item → List NodeId
  | .self, .node id => [id].filter doc.isElement
  | .self, .document => []
  | .child, .node id => (doc.children id).filter doc.isElement
  | .child, .document => roots.filter doc.isElement
  | .descendantOrSelf, .node id => doc.elementsUnder id
  | .descendantOrSelf, .document => roots.flatMap doc.elementsUnder
  | .parent, .node id => (doc.parent? id).toList.filter doc.isElement
  | .parent, .document => []

/-- The node is an element that passes the test of a step; no node passes a test of attributes. -/
def passes (doc : Document) (test : NodeTest) (id : NodeId) : Bool :=
  match doc.node? id with
  | none => false
  | some n =>
      n.isElement &&
        match test with
        | .any => true
        | .element test => test.admits n.localName n.name
        | .attribute _ => false

/-- The part of an attribute's name behind its last colon. -/
def attributeLocalPart (name : String) : String :=
  String.ofList (name.toList.reverse.takeWhile (· != ':')).reverse

/-- The values of the attributes of some nodes that a test admits, node by node. -/
def attributeValues (doc : Document) (test : NameTest) (ids : List NodeId) : List String :=
  ids.flatMap fun id =>
    ((doc.attributes id).filter fun a => test.admits (attributeLocalPart a.name) a.name).map
      (·.value)

/-! ## Document order -/

/-- The list without members that repeat the one before them. -/
def dropRepeats : List NodeId → List NodeId
  | [] => []
  | [id] => [id]
  | id :: next :: rest =>
      if id == next then dropRepeats (next :: rest) else id :: dropRepeats (next :: rest)

/-- The nodes in the order of a list and each once; those outside the list come last. -/
def inOrder (order ids : List NodeId) : List NodeId :=
  let ranked := ids.map fun id => (order.idxOf id, id)
  dropRepeats ((ranked.mergeSort fun a b => a.1 ≤ b.1).map (·.2))

end MarkupPath.Evaluation
