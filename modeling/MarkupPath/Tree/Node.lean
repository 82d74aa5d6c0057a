import MarkupPath.Markup.Attribute

/-!
# Nodes

A node of a tree is an element, a comment or a CDATA section. Only elements have a name, attributes
and children, so these live in their case of `Content`; every node may carry a text and a parent.
The two kinds without children are called markers.
-/

set_option autoImplicit false

namespace MarkupPath.Tree

open MarkupPath.Markup (Attribute)

/-- A node of a document, by its place in the order of creation. -/
abbrev NodeId := Nat

/-- The written form of a node's identity. -/
def NodeId.label (id : NodeId) : String := "#" ++ toString id

/-- The kinds of nodes. -/
inductive NodeKind where
  | element
  | comment
  | cdata
  deriving DecidableEq, Repr

/-- What a node is, with what only nodes of its kind have. That markers have neither children nor
attributes is carried by this type; to refuse an edit that asks for them is left to the checks of
the document. -/
inductive Content where
  | element (name : String) (attributes : List Attribute) (children : List NodeId)
  | comment
  | cdata
  deriving DecidableEq, Repr

/-- A node: its content, its own text, and its parent if it is attached. The text of a marker is its
body. -/
structure Node where
  content : Content
  text : Option String
  parent : Option NodeId
  deriving DecidableEq, Repr

namespace Node

/-- The kind of the node. -/
def kind (n : Node) : NodeKind :=
  match n.content with
  | .element _ _ _ => .element
  | .comment => .comment
  | .cdata => .cdata

/-- The node is an element. -/
def isElement (n : Node) : Bool := n.kind == .element

/-- The name as written, empty for a marker. -/
def name (n : Node) : String :=
  match n.content with
  | .element name _ _ => name
  | _ => ""

/-- The attributes in order, none for a marker. -/
def attributes (n : Node) : List Attribute :=
  match n.content with
  | .element _ attributes _ => attributes
  | _ => []

/-- The children in order, none for a marker. -/
def children (n : Node) : List NodeId :=
  match n.content with
  | .element _ _ children => children
  | _ => []

/-- The node with its children changed; a marker stays as it is. -/
def mapChildren (f : List NodeId → List NodeId) (n : Node) : Node :=
  match n.content with
  | .element name attributes children =>
      { n with content := .element name attributes (f children) }
  | _ => n

/-- The node with its attributes changed; a marker stays as it is. -/
def mapAttributes (f : List Attribute → List Attribute) (n : Node) : Node :=
  match n.content with
  | .element name attributes children =>
      { n with content := .element name (f attributes) children }
  | _ => n

end Node

/-- The part of a name behind its first colon, or the whole name if it has none. -/
def localPart (name : String) : String :=
  match name.toList.dropWhile (· != ':') with
  | _ :: part => String.ofList part
  | [] => name

/-- The local name of a node, without the part before the first colon. -/
def Node.localName (n : Node) : String := localPart n.name

/-! ## Attribute lists -/

/-- The list with the attribute of that name set to a value: in its place if the name is there, at
the end otherwise. -/
def setAttribute (name value : String) : List Attribute → List Attribute
  | [] => [⟨name, value⟩]
  | a :: rest =>
      if a.name == name then ⟨name, value⟩ :: rest else a :: setAttribute name value rest

/-- The list without the first attribute of that name. -/
def removeAttribute (name : String) (attributes : List Attribute) : List Attribute :=
  attributes.eraseP fun a => a.name == name

/-! ## Descriptions of new elements -/

/-- An element to create. -/
structure ElementSpec where
  name : String
  attributes : List Attribute
  text : Option String
  deriving DecidableEq, Repr

namespace ElementSpec

/-- An element without attributes and text. -/
def named (name : String) : ElementSpec := ⟨name, [], none⟩

/-- The description with an attribute set. -/
def withAttribute (spec : ElementSpec) (name value : String) : ElementSpec :=
  { spec with attributes := setAttribute name value spec.attributes }

/-- The description with a text. -/
def withText (spec : ElementSpec) (text : String) : ElementSpec := { spec with text := some text }

/-- The unattached element that is described. -/
def node (spec : ElementSpec) : Node := ⟨.element spec.name spec.attributes [], spec.text, none⟩

end ElementSpec

/-- An unattached comment. -/
def Node.ofComment (body : String) : Node := ⟨.comment, some body, none⟩

/-- An unattached CDATA section. -/
def Node.ofCData (body : String) : Node := ⟨.cdata, some body, none⟩

/-! ## Views of changed nodes -/

section Views

variable (n : Node)

@[simp] theorem Node.mapChildren_text (f : List NodeId → List NodeId) :
    (n.mapChildren f).text = n.text := by
  cases n with
  | mk content _ _ => cases content <;> rfl

@[simp] theorem Node.mapChildren_parent (f : List NodeId → List NodeId) :
    (n.mapChildren f).parent = n.parent := by
  cases n with
  | mk content _ _ => cases content <;> rfl

@[simp] theorem Node.mapChildren_kind (f : List NodeId → List NodeId) :
    (n.mapChildren f).kind = n.kind := by
  cases n with
  | mk content _ _ => cases content <;> rfl

@[simp] theorem Node.mapChildren_name (f : List NodeId → List NodeId) :
    (n.mapChildren f).name = n.name := by
  cases n with
  | mk content _ _ => cases content <;> rfl

@[simp] theorem Node.mapChildren_attributes (f : List NodeId → List NodeId) :
    (n.mapChildren f).attributes = n.attributes := by
  cases n with
  | mk content _ _ => cases content <;> rfl

theorem Node.mapChildren_children (f : List NodeId → List NodeId) :
    (n.mapChildren f).children = if n.isElement then f n.children else [] := by
  cases n with
  | mk content _ _ => cases content <;> rfl

end Views

end MarkupPath.Tree
