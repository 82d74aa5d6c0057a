import MarkupPath.Tree.Document

/-!
# Walks

The walks along the tree relation: upward from a node to its root, and downward through a subtree in
document order, each node before its children. `Document.Ancestor` is the relation that the upward
walk follows. In a document without cycles a walk meets each node at most once, so the number of
nodes bounds it.
-/

set_option autoImplicit false

namespace MarkupPath.Tree

namespace Document

/-! ## Upward -/

/-- The first node is reached from the second by going to the parent at least once. -/
inductive Ancestor (doc : Document) : NodeId → NodeId → Prop where
  | parent {p id : NodeId} : doc.parent? id = some p → Ancestor doc p id
  | step {a p id : NodeId} : doc.parent? id = some p → Ancestor doc a p → Ancestor doc a id

/-- The given node, if any, and the nodes above it, at most `fuel` of them. -/
def ancestorsFrom (doc : Document) : Nat → Option NodeId → List NodeId
  | fuel + 1, some id => id :: ancestorsFrom doc fuel (doc.parent? id)
  | _, _ => []

/-- The nodes above a node, from its parent upward. -/
def ancestors (doc : Document) (id : NodeId) : List NodeId :=
  doc.ancestorsFrom doc.size (doc.parent? id)

/-- The first node stands above the second. -/
def isAncestor (doc : Document) (ancestor id : NodeId) : Bool :=
  (doc.ancestors id).contains ancestor

/-- The root of the tree that holds a node. -/
def top (doc : Document) (id : NodeId) : NodeId := ((doc.ancestors id).getLast?).getD id

/-! ## Downward -/

/-- The subtrees of the nodes of a stack, one after the other, at most `fuel` nodes of them. -/
def preorderFrom (doc : Document) : Nat → List NodeId → List NodeId
  | _, [] => []
  | 0, _ :: _ => []
  | fuel + 1, id :: stack => id :: preorderFrom doc fuel (doc.children id ++ stack)

/-- The nodes of the subtree of a node, each before its children. -/
def preorder (doc : Document) (id : NodeId) : List NodeId := doc.preorderFrom doc.size [id]

/-- The elements of the subtree of a node, in document order. -/
def elementsUnder (doc : Document) (id : NodeId) : List NodeId :=
  (doc.preorder id).filter doc.isElement

/-- The elements of the trees that hold the given nodes: the trees in the order in which they are
first met, each in document order. -/
def elementsAround (doc : Document) (ids : List NodeId) : List NodeId :=
  (ids.map doc.top).eraseDups.flatMap doc.elementsUnder

end Document

end MarkupPath.Tree
