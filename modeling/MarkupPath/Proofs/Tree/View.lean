import MarkupPath.Tree.Edit

/-!
# Views of edited documents

Everything known about a document is read through a few views: its size, and for a node its kind,
its attributes, its children and its parent. Edits are made of four parts, `push`, `modify`,
`detach` and `attach`; this module says for each part what each view shows behind it. Later modules
use these equations and do not look into an edit.
-/

set_option autoImplicit false

namespace MarkupPath.Tree

open MarkupPath.Markup (Attribute)

/-! ## Nodes -/

@[simp] theorem Node.mapAttributes_kind (f : List Attribute → List Attribute) (n : Node) :
    (n.mapAttributes f).kind = n.kind := by
  rcases n with ⟨_ | _ | _, _, _⟩ <;> rfl

@[simp] theorem Node.mapAttributes_parent (f : List Attribute → List Attribute) (n : Node) :
    (n.mapAttributes f).parent = n.parent := by
  rcases n with ⟨_ | _ | _, _, _⟩ <;> rfl

@[simp] theorem Node.mapAttributes_children (f : List Attribute → List Attribute) (n : Node) :
    (n.mapAttributes f).children = n.children := by
  rcases n with ⟨_ | _ | _, _, _⟩ <;> rfl

theorem Node.mapAttributes_attributes (f : List Attribute → List Attribute) (n : Node) :
    (n.mapAttributes f).attributes = if n.isElement then f n.attributes else [] := by
  rcases n with ⟨_ | _ | _, _, _⟩ <;> rfl

/-- A marker has no children. -/
theorem Node.children_of_not_isElement {n : Node} (h : n.isElement = false) : n.children = [] := by
  rcases n with ⟨_ | _ | _, _, _⟩
  · exact absurd h (by simp [Node.isElement, Node.kind])
  · rfl
  · rfl

/-- A marker has no attributes. -/
theorem Node.attributes_of_not_isElement {n : Node} (h : n.isElement = false) :
    n.attributes = [] := by
  rcases n with ⟨_ | _ | _, _, _⟩
  · exact absurd h (by simp [Node.isElement, Node.kind])
  · rfl
  · rfl

namespace Document

variable (doc : Document)

/-! ## Known nodes -/

theorem node?_eq_none_iff {id : NodeId} : doc.node? id = none ↔ doc.size ≤ id := by
  simp [node?, size]

theorem lt_size_of_node? {doc : Document} {id : NodeId} {n : Node} (h : doc.node? id = some n) :
    id < doc.size := by
  refine Nat.lt_of_not_le fun hle => ?_
  rw [doc.node?_eq_none_iff.2 hle] at h
  cases h

theorem lt_size_of_parent? {doc : Document} {id p : NodeId} (h : doc.parent? id = some p) :
    id < doc.size := by
  obtain ⟨n, hn, -⟩ := Option.bind_eq_some_iff.1 h
  exact lt_size_of_node? hn

theorem isElement_iff {id : NodeId} :
    doc.isElement id = true ↔ ∃ n, doc.node? id = some n ∧ n.isElement = true := by
  simp [isElement, kind?, Node.isElement]

theorem lt_size_of_isElement {doc : Document} {id : NodeId} (h : doc.isElement id = true) :
    id < doc.size := by
  obtain ⟨n, hn, -⟩ := doc.isElement_iff.1 h
  exact lt_size_of_node? hn

/-- Only elements have children. -/
theorem isElement_of_mem_children {doc : Document} {p c : NodeId} (h : c ∈ doc.children p) :
    doc.isElement p = true := by
  rw [children] at h
  split at h
  · next n hn =>
    refine doc.isElement_iff.2 ⟨n, hn, ?_⟩
    cases hm : n.isElement with
    | true => rfl
    | false =>
      rw [Node.children_of_not_isElement hm] at h
      cases h
  · cases h

theorem children_of_not_isElement {id : NodeId} (h : doc.isElement id = false) :
    doc.children id = [] := by
  rw [List.eq_nil_iff_forall_not_mem]
  intro c hc
  rw [isElement_of_mem_children hc] at h
  cases h

theorem attributes_of_not_isElement {id : NodeId} (h : doc.isElement id = false) :
    doc.attributes id = [] := by
  rw [attributes]
  split
  · next n hn =>
    refine Node.attributes_of_not_isElement (Bool.eq_false_iff.2 fun hm => ?_)
    rw [doc.isElement_iff.2 ⟨n, hn, hm⟩] at h
    cases h
  · rfl

/-! ## Views as images of the node -/

theorem parent?_eq_map (j : NodeId) : doc.parent? j = ((doc.node? j).map Node.parent).join := by
  cases h : doc.node? j <;> simp [parent?, h]

theorem children_eq_map (j : NodeId) :
    doc.children j = ((doc.node? j).map Node.children).getD [] := by
  cases h : doc.node? j <;> simp [children, h]

theorem attributes_eq_map (j : NodeId) :
    doc.attributes j = ((doc.node? j).map Node.attributes).getD [] := by
  cases h : doc.node? j <;> simp [attributes, h]

/-! ## A new node -/

section Push

variable (n : Node)

@[simp] theorem size_push : (doc.push n).size = doc.size + 1 := by
  simp [push, size]

@[simp] theorem documentElement_push : (doc.push n).documentElement = doc.documentElement := rfl

theorem node?_push (id : NodeId) :
    (doc.push n).node? id = if id = doc.size then some n else doc.node? id := by
  simp only [push, node?, size, Array.getElem?_push]
  rfl

theorem parent?_push (id : NodeId) :
    (doc.push n).parent? id = if id = doc.size then n.parent else doc.parent? id := by
  rw [parent?, node?_push]
  split <;> rfl

theorem children_push (id : NodeId) :
    (doc.push n).children id = if id = doc.size then n.children else doc.children id := by
  rw [children_eq_map, node?_push, children_eq_map]
  split <;> rfl

theorem attributes_push (id : NodeId) :
    (doc.push n).attributes id = if id = doc.size then n.attributes else doc.attributes id := by
  rw [attributes_eq_map, node?_push, attributes_eq_map]
  split <;> rfl

theorem kind?_push (id : NodeId) :
    (doc.push n).kind? id = if id = doc.size then some n.kind else doc.kind? id := by
  rw [kind?, node?_push]
  split <;> rfl

end Push

/-! ## A changed node -/

section Modify

variable (id : NodeId) (f : Node → Node)

@[simp] theorem size_modify : (doc.modify id f).size = doc.size := by
  simp [modify, size]

@[simp] theorem documentElement_modify :
    (doc.modify id f).documentElement = doc.documentElement := rfl

theorem node?_modify (j : NodeId) :
    (doc.modify id f).node? j = if j = id then (doc.node? j).map f else doc.node? j := by
  simp only [modify, node?, Array.getElem?_modify, eq_comm]

/-- A view of nodes that a change keeps is kept for every node of the document. -/
theorem map_node?_modify {β : Type} (view : Node → β) (hview : ∀ n, view (f n) = view n)
    (j : NodeId) : ((doc.modify id f).node? j).map view = (doc.node? j).map view := by
  rw [node?_modify]
  split
  · rw [Option.map_map]
    congr 1
    funext n
    exact hview n
  · rfl

variable {f}

theorem kind?_modify (hf : ∀ n, (f n).kind = n.kind) (j : NodeId) :
    (doc.modify id f).kind? j = doc.kind? j :=
  map_node?_modify doc id f Node.kind hf j

theorem isElement_modify (hf : ∀ n, (f n).kind = n.kind) (j : NodeId) :
    (doc.modify id f).isElement j = doc.isElement j := by
  rw [isElement, isElement, kind?_modify doc id hf]

theorem parent?_modify_of_eq (hf : ∀ n, (f n).parent = n.parent) (j : NodeId) :
    (doc.modify id f).parent? j = doc.parent? j := by
  rw [parent?_eq_map, parent?_eq_map, map_node?_modify doc id f Node.parent hf]

theorem children_modify_of_eq (hf : ∀ n, (f n).children = n.children) (j : NodeId) :
    (doc.modify id f).children j = doc.children j := by
  rw [children_eq_map, children_eq_map, map_node?_modify doc id f Node.children hf]

theorem attributes_modify_of_eq (hf : ∀ n, (f n).attributes = n.attributes) (j : NodeId) :
    (doc.modify id f).attributes j = doc.attributes j := by
  rw [attributes_eq_map, attributes_eq_map, map_node?_modify doc id f Node.attributes hf]

end Modify

/-- Only the changed node has other children, and none if it is a marker. -/
theorem children_modify_mapChildren (id : NodeId) (g : List NodeId → List NodeId) (j : NodeId) :
    (doc.modify id (Node.mapChildren g)).children j =
      if j = id ∧ doc.isElement j = true then g (doc.children j) else doc.children j := by
  simp only [children_eq_map, node?_modify, isElement_iff]
  by_cases hj : j = id
  · cases hn : doc.node? j with
    | none => simp [hj]
    | some n =>
      -- a marker has no children before the change, and the change gives it none
      by_cases he : n.isElement = true
      · simp [hj, Node.mapChildren_children, he]
      · simp [hj, Node.mapChildren_children, he,
          Node.children_of_not_isElement (Bool.eq_false_iff.2 he)]
  · simp [hj]

/-- Only the changed node has other attributes, and none if it is a marker. -/
theorem attributes_modify_mapAttributes (id : NodeId) (g : List Attribute → List Attribute)
    (j : NodeId) :
    (doc.modify id (Node.mapAttributes g)).attributes j =
      if j = id ∧ doc.isElement j = true then g (doc.attributes j) else doc.attributes j := by
  simp only [attributes_eq_map, node?_modify, isElement_iff]
  by_cases hj : j = id
  · cases hn : doc.node? j with
    | none => simp [hj]
    | some n =>
      -- as with children, a marker has no attributes and gets none
      by_cases he : n.isElement = true
      · simp [hj, Node.mapAttributes_attributes, he]
      · simp [hj, Node.mapAttributes_attributes, he,
          Node.attributes_of_not_isElement (Bool.eq_false_iff.2 he)]
  · simp [hj]

theorem parent?_modify_const (id : NodeId) (p : Option NodeId) (j : NodeId) :
    (doc.modify id fun n => { n with parent := p }).parent? j =
      if j = id ∧ j < doc.size then p else doc.parent? j := by
  rw [parent?, node?_modify, parent?]
  by_cases hj : j = id
  · cases hn : doc.node? j with
    | none => simp [Nat.not_lt.2 (doc.node?_eq_none_iff.1 hn)]
    | some n => simp [hj, hj ▸ lt_size_of_node? hn]
  · simp [hj]

/-- A change of the parent alone shows in no other view. -/
theorem kind?_modify_const (id : NodeId) (p : Option NodeId) (j : NodeId) :
    (doc.modify id fun n => { n with parent := p }).kind? j = doc.kind? j :=
  doc.map_node?_modify id (fun n => { n with parent := p }) Node.kind (fun _ => rfl) j

theorem children_modify_const (id : NodeId) (p : Option NodeId) (j : NodeId) :
    (doc.modify id fun n => { n with parent := p }).children j = doc.children j := by
  simp only [children_eq_map]
  rw [doc.map_node?_modify id (fun n => { n with parent := p }) Node.children fun _ => rfl]

theorem attributes_modify_const (id : NodeId) (p : Option NodeId) (j : NodeId) :
    (doc.modify id fun n => { n with parent := p }).attributes j = doc.attributes j := by
  simp only [attributes_eq_map]
  rw [doc.map_node?_modify id (fun n => { n with parent := p }) Node.attributes fun _ => rfl]

theorem isElement_modify_const (id : NodeId) (p : Option NodeId) (j : NodeId) :
    (doc.modify id fun n => { n with parent := p }).isElement j = doc.isElement j := by
  rw [isElement, isElement, kind?_modify_const]

/-! ## A subtree made a tree of its own -/

section Detach

variable (id : NodeId)

@[simp] theorem size_detach : (doc.detach id).size = doc.size := by
  rw [detach]
  split <;> simp

@[simp] theorem documentElement_detach :
    (doc.detach id).documentElement = doc.documentElement := by
  rw [detach]
  split <;> rfl

theorem kind?_detach (j : NodeId) : (doc.detach id).kind? j = doc.kind? j := by
  rw [detach]
  split
  · rfl
  · rw [kind?_modify _ _ (Node.mapChildren_kind · _), kind?_modify_const]

@[simp] theorem isElement_detach (j : NodeId) : (doc.detach id).isElement j = doc.isElement j := by
  rw [isElement, isElement, kind?_detach]

@[simp] theorem attributes_detach (j : NodeId) :
    (doc.detach id).attributes j = doc.attributes j := by
  rw [detach]
  split
  · rfl
  · rw [attributes_modify_of_eq _ _ (Node.mapChildren_attributes · _),
      attributes_modify_const]

/-- A detached node has no parent; the others keep theirs. -/
theorem parent?_detach (j : NodeId) :
    (doc.detach id).parent? j = if j = id then none else doc.parent? j := by
  rw [detach]
  split
  · next hp =>
    split
    · next hj => rw [hj, hp]
    · rfl
  · next p hp =>
    rw [parent?_modify_of_eq _ _ (Node.mapChildren_parent · _), parent?_modify_const]
    by_cases hj : j = id
    · subst hj
      simp [lt_size_of_parent? hp]
    · simp [hj]

/-- Only the old parent loses a child. -/
theorem children_detach (j : NodeId) :
    (doc.detach id).children j =
      if doc.parent? id = some j then (doc.children j).erase id else doc.children j := by
  rw [detach]
  split
  · next hp => simp [hp]
  · next p hp =>
    rw [children_modify_mapChildren, children_modify_const, hp,
      isElement_modify_const]
    by_cases hj : j = p
    · -- taken from a marker, which has no children, the node leaves them as they are
      by_cases he : doc.isElement j = true
      · simp [hj, hj ▸ he]
      · simp [hj, hj ▸ doc.children_of_not_isElement (Bool.eq_false_iff.2 he)]
    · simp [hj, Ne.symm hj]

end Detach

/-! ## A root put under a parent -/

section Attach

variable (parent child : NodeId) (place : List NodeId → List NodeId)

@[simp] theorem size_attach : (doc.attach parent child place).size = doc.size := by
  rw [attach]
  split <;> simp [size, modify]

theorem documentElement_attach :
    (doc.attach parent child place).documentElement =
      if doc.documentElement = some child then none else doc.documentElement := by
  rw [attach]
  simp only [documentElement_modify, beq_iff_eq]
  split <;> rfl

/-- Apart from the document element, attaching is two changes of nodes. -/
theorem node?_attach (j : NodeId) :
    (doc.attach parent child place).node? j =
      ((doc.modify parent (Node.mapChildren place)).modify child
        fun n => { n with parent := some parent }).node? j := by
  rw [attach]
  split <;> rfl

theorem kind?_attach (j : NodeId) : (doc.attach parent child place).kind? j = doc.kind? j := by
  rw [kind?, node?_attach, ← kind?, kind?_modify_const,
    kind?_modify _ _ (Node.mapChildren_kind · _)]

@[simp] theorem isElement_attach (j : NodeId) :
    (doc.attach parent child place).isElement j = doc.isElement j := by
  rw [isElement, isElement, kind?_attach]

@[simp] theorem attributes_attach (j : NodeId) :
    (doc.attach parent child place).attributes j = doc.attributes j := by
  rw [attributes_eq_map, node?_attach, ← attributes_eq_map,
    attributes_modify_const,
    attributes_modify_of_eq _ _ (Node.mapChildren_attributes · _)]

theorem parent?_attach (j : NodeId) :
    (doc.attach parent child place).parent? j =
      if j = child ∧ j < doc.size then some parent else doc.parent? j := by
  rw [parent?_eq_map, node?_attach, ← parent?_eq_map, parent?_modify_const, size_modify,
    parent?_modify_of_eq _ _ (Node.mapChildren_parent · _)]

theorem children_attach (j : NodeId) :
    (doc.attach parent child place).children j =
      if j = parent ∧ doc.isElement j = true then place (doc.children j) else doc.children j := by
  rw [children_eq_map, node?_attach, ← children_eq_map, children_modify_const,
    children_modify_mapChildren]

end Attach

end Document

end MarkupPath.Tree
