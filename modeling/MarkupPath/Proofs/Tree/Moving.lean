import MarkupPath.Proofs.Tree.Refusal
import MarkupPath.Proofs.Tree.Renaming

/-!
# Moved subtrees

A move takes a node from its parent and puts it under an element that is not inside its subtree.
`Document.Moved` says all that this does to a document: the node stands at its new place, it is gone
from every other list of children, and nothing else has changed, neither the other parents nor the
contents of any node nor the walk through the moved subtree. Every move that is not refused is of
this kind, and to append is to insert behind the other children (`insertChild_moved`).

A document is determined by its views (`Document.eq_of_views`). So a node that is removed and put
back where it stood leaves the document as it was (`insertChild_remove`).
-/

set_option autoImplicit false

namespace MarkupPath.Tree

/-! ## Lists of children -/

/-- A position behind the end counts as the end. -/
theorem placeAt_eq_insertIdx (index : Nat) (child : NodeId) (children : List NodeId) :
    Document.placeAt index child children =
      children.insertIdx (min index children.length) child := by
  induction children generalizing index with
  | nil => simp [Document.placeAt]
  | cons c rest ih =>
    cases index with
    | zero => rw [Nat.zero_min]; rfl
    | succ index =>
      rw [List.length_cons, Nat.succ_min_succ, List.insertIdx_succ_cons, ← ih]
      rfl

/-- A child that is taken out and put back at its position. -/
theorem placeAt_filter {children : List NodeId} (hnodup : children.Nodup) {index : Nat}
    {child : NodeId} (hchild : children[index]? = some child) :
    Document.placeAt index child (children.filter (· ≠ child)) = children := by
  obtain ⟨hindex, rfl⟩ := List.getElem?_eq_some_iff.1 hchild
  have herase : children.filter (· ≠ children[index]) = children.eraseIdx index := by
    have hfilter := hnodup.erase_eq_filter children[index]
    rw [List.erase_eq_eraseIdx_of_idxOf (hnodup.idxOf_getElem index hindex)] at hfilter
    rw [hfilter]
    exact List.filter_congr fun c _ => by by_cases hc : c = children[index] <;> simp [hc]
  have hlast : index ≤ (children.eraseIdx index).length := by
    rw [List.length_eraseIdx_of_lt hindex]
    omega
  rw [herase, placeAt_eq_insertIdx, Nat.min_eq_left hlast, List.insertIdx_eraseIdx_getElem]

namespace Document

/-! ## Contents of nodes -/

/-- The node has the same contents in both documents, whatever its parent and children: kind, name,
attributes and text are the same, or neither document knows it. -/
structure SameContents (doc doc' : Document) (id : NodeId) : Prop where
  kind?_eq : doc'.kind? id = doc.kind? id
  name?_eq : doc'.name? id = doc.name? id
  attributes_eq : doc'.attributes id = doc.attributes id
  text?_eq : doc'.text? id = doc.text? id

theorem SameContents.trans {doc doc' doc'' : Document} {id : NodeId}
    (h : SameContents doc doc' id) (h' : SameContents doc' doc'' id) :
    SameContents doc doc'' id where
  kind?_eq := h'.kind?_eq.trans h.kind?_eq
  name?_eq := h'.name?_eq.trans h.name?_eq
  attributes_eq := h'.attributes_eq.trans h.attributes_eq
  text?_eq := h'.text?_eq.trans h.text?_eq

section Contents

variable {doc : Document} {β : Type} (view : Node → β)
  (hchildren : ∀ (n : Node) f, view (n.mapChildren f) = view n)
  (hparent : ∀ (n : Node) p, view { n with parent := p } = view n)

include hchildren hparent

/-- A view that sees neither parents nor children sees nothing of a node being detached. -/
theorem map_node?_detach (id j : NodeId) :
    ((doc.detach id).node? j).map view = (doc.node? j).map view := by
  rw [detach]
  split
  · rfl
  · rw [map_node?_modify _ _ _ view (hchildren · _), map_node?_modify _ _ _ view (hparent · _)]

theorem map_node?_attach (parent child : NodeId) (place : List NodeId → List NodeId) (j : NodeId) :
    ((doc.attach parent child place).node? j).map view = (doc.node? j).map view := by
  rw [node?_attach, map_node?_modify _ _ _ view (hparent · _),
    map_node?_modify _ _ _ view (hchildren · _)]

end Contents

theorem text?_eq_map (doc : Document) (id : NodeId) :
    doc.text? id = ((doc.node? id).map Node.text).join := by
  cases h : doc.node? id <;> simp [text?, h]

theorem sameContents_detach (doc : Document) (id j : NodeId) :
    SameContents doc (doc.detach id) j where
  kind?_eq := doc.kind?_detach id j
  name?_eq := map_node?_detach Node.name Node.mapChildren_name (fun _ _ => rfl) id j
  attributes_eq := doc.attributes_detach id j
  text?_eq := by
    rw [text?_eq_map, text?_eq_map,
      map_node?_detach Node.text Node.mapChildren_text (fun _ _ => rfl)]

theorem sameContents_attach (doc : Document) (parent child : NodeId)
    (place : List NodeId → List NodeId) (j : NodeId) :
    SameContents doc (doc.attach parent child place) j where
  kind?_eq := doc.kind?_attach parent child place j
  name?_eq :=
    map_node?_attach Node.name Node.mapChildren_name (fun _ _ => rfl) parent child place j
  attributes_eq := doc.attributes_attach parent child place j
  text?_eq := by
    rw [text?_eq_map, text?_eq_map,
      map_node?_attach Node.text Node.mapChildren_text (fun _ _ => rfl)]

/-! ## Documents as their views -/

theorem node_eq_of_views {m n : Node} (hkind : m.kind = n.kind) (hname : m.name = n.name)
    (hattributes : m.attributes = n.attributes) (hchildren : m.children = n.children)
    (htext : m.text = n.text) (hparent : m.parent = n.parent) : m = n := by
  rcases m with ⟨_ | _ | _, _, _⟩ <;> rcases n with ⟨_ | _ | _, _, _⟩ <;>
    simp_all [Node.kind, Node.name, Node.attributes, Node.children]

section Views

variable {doc doc' : Document}

/-- A node that has the same contents, parent and children in both documents is the same. -/
theorem SameContents.node?_eq {id : NodeId} (h : SameContents doc doc' id)
    (hparent : doc'.parent? id = doc.parent? id) (hchildren : doc'.children id = doc.children id) :
    doc'.node? id = doc.node? id := by
  obtain ⟨hkind, hname, hattributes, htext⟩ := h
  simp only [kind?, name?, attributes, text?, parent?, children] at *
  cases hn : doc.node? id with
  | none => simpa [hn] using hkind
  | some n =>
    rw [hn] at hkind
    obtain ⟨m, hm, hmn⟩ := Option.map_eq_some_iff.1 hkind
    simp only [hm, hn, Option.map_some, Option.bind_some, Option.some.injEq] at *
    exact node_eq_of_views hmn hname hattributes hchildren htext hparent

/-- Documents with the same views are the same. -/
theorem eq_of_views (hcontents : ∀ id, SameContents doc doc' id)
    (hparent : ∀ id, doc'.parent? id = doc.parent? id)
    (hchildren : ∀ id, doc'.children id = doc.children id)
    (hdocument : doc'.documentElement = doc.documentElement) : doc' = doc := by
  have hnodes : doc'.nodes = doc.nodes := Array.ext_getElem? fun id =>
    (hcontents id).node?_eq (hparent id) (hchildren id)
  cases doc
  cases doc'
  exact congr (congrArg mk hnodes) hdocument

end Views

/-! ## Walks through unchanged subtrees -/

theorem Traversal.congr {doc doc' : Document} {stack ids : List NodeId}
    (ht : Traversal doc stack ids) (hsame : ∀ n ∈ ids, doc'.children n = doc.children n) :
    Traversal doc' stack ids := by
  induction ht with
  | nil => exact .nil
  | cons _ ih =>
    obtain ⟨hid, hrest⟩ := List.forall_mem_cons.1 hsame
    refine .cons ?_
    rw [hid]
    exact ih hrest

/-! ## Moves -/

/-- The second document is the first one with a subtree moved. The child stands under the parent, at
the position among the other children there, or behind them if there are fewer, and among no other
children. Only if it was the document element there is none any more. Contents, all other parents
and the walk through the subtree are as before. -/
structure Moved (doc : Document) (parent : NodeId) (index : Nat) (child : NodeId)
    (moved : Document) : Prop where
  size_eq : moved.size = doc.size
  documentElement_eq : moved.documentElement =
    if doc.documentElement = some child then none else doc.documentElement
  children_parent : moved.children parent =
    let others := (doc.children parent).filter (· ≠ child)
    others.insertIdx (min index others.length) child
  children_other : ∀ id, id ≠ parent → moved.children id = (doc.children id).filter (· ≠ child)
  parent?_child : moved.parent? child = some parent
  parent?_other : ∀ id, id ≠ child → moved.parent? id = doc.parent? id
  sameContents : ∀ id, SameContents doc moved id
  preorder_child : moved.preorder child = doc.preorder child

namespace WellFormed

variable {doc : Document} {parent child : NodeId}

/-- Detaching a node takes it out of all lists of children. -/
theorem children_detach_eq (h : doc.WellFormed) (child id : NodeId) :
    (doc.detach child).children id = (doc.children id).filter (· ≠ child) := by
  have hfilter : (doc.children id).erase child = (doc.children id).filter (· ≠ child) := by
    rw [(h.nodup_children id).erase_eq_filter]
    exact List.filter_congr fun c _ => by by_cases hc : c = child <;> simp [hc]
  rw [children_detach, ← hfilter]
  split
  · rfl
  · next hp =>
    rw [← h.mem_children_iff] at hp
    exact (List.erase_of_not_mem hp).symm

section

variable (h : doc.WellFormed) (hparent : doc.isElement parent = true) (hchild : child < doc.size)
  (hne : child ≠ parent) (habove : ¬ doc.Ancestor child parent)

include h hparent hchild hne habove

/-- A move to an element outside the moved subtree is not refused. -/
theorem move_eq_ok (place : List NodeId → List NodeId) :
    doc.move parent child place = .ok ((doc.detach child).attach parent child place) := by
  rw [Document.move]
  cases hcheck : doc.checkInsert parent child with
  | ok u => rfl
  | error e =>
    exfalso
    cases h.checkInsert_eq_error_iff.1 hcheck with
    | parent hfault =>
      cases hfault with
      | unknown hunknown => exact hunknown (lt_size_of_isElement hparent)
      | marker hmarker =>
        rw [(isMarker_iff.1 hmarker).2] at hparent
        cases hparent
    | child _ hunknown => exact hunknown hchild
    | cycle _ _ hcycle => exact hcycle.elim (hne ·.symm) habove

/-- An insertion that is not refused moves the subtree. -/
theorem moved_insertChild (index : Nat) :
    ∃ moved, doc.insertChild parent index child = .ok moved ∧
      doc.Moved parent index child moved := by
  have hok := h.move_eq_ok hparent hchild hne habove (placeAt index child)
  have hwf := h.move (perm_placeAt index child) hok
  refine ⟨_, hok, ?_⟩
  have hothers : ∀ id, id ≠ parent →
      ((doc.detach child).attach parent child (placeAt index child)).children id =
        (doc.children id).filter (· ≠ child) := by
    intro id hid
    rw [children_attach, if_neg fun hand => hid hand.1, h.children_detach_eq]
  constructor
  · rw [size_attach, size_detach]
  · rw [documentElement_attach, documentElement_detach]
  · rw [children_attach, if_pos ⟨rfl, by rw [isElement_detach, hparent]⟩, h.children_detach_eq,
      placeAt_eq_insertIdx]
  · exact hothers
  · rw [parent?_attach, if_pos ⟨rfl, by rw [size_detach]; exact hchild⟩]
  · intro id hid
    rw [parent?_attach, if_neg fun hand => hid hand.1, parent?_detach, if_neg hid]
  · exact fun id => (doc.sameContents_detach child id).trans (sameContents_attach _ _ _ _ id)
  · -- neither the old parent nor the new one belongs to the subtree, so its walk is the same
    have hwalk := h.traversal_preorder hchild
    refine Traversal.unique (hwf.traversal_preorder (by simpa using hchild)) (hwalk.congr ?_)
    intro n hn
    have hbelow := (h.mem_preorder_iff hchild).1 hn
    have hnp : n ≠ parent := by
      rintro rfl
      exact hbelow.elim (hne ·.symm) habove
    rw [hothers n hnp, List.filter_eq_self]
    intro c hc
    have hcp := h.mem_children_iff.1 hc
    refine decide_eq_true fun heq => h.acyclic child ?_
    exact hbelow.trans_ancestor (.parent (heq ▸ hcp))

end

/-- A node that is taken from its parent and put back at its position leaves the document as it
was. -/
theorem insertChild_detach (h : doc.WellFormed) {index : Nat}
    (hindex : (doc.children parent)[index]? = some child) :
    (doc.detach child).insertChild parent index child = .ok doc := by
  have hparent : doc.parent? child = some parent :=
    h.mem_children_iff.1 (List.mem_of_getElem? hindex)
  have hsub : ∀ {c p : NodeId}, (doc.detach child).parent? c = some p → doc.parent? c = some p := by
    intro c p hp
    rw [parent?_detach] at hp
    split at hp
    · cases hp
    · exact hp
  have habove : ¬ (doc.detach child).Ancestor child parent := fun ha =>
    h.acyclic child ((ha.mono hsub).trans (.parent hparent))
  have hne : child ≠ parent := fun heq => h.acyclic child (.parent (heq ▸ hparent))
  have helement : (doc.detach child).isElement parent = true := by
    rw [isElement_detach]
    exact h.isElement_of_parent? hparent
  have hknown : child < (doc.detach child).size := by
    rw [size_detach]
    exact lt_size_of_parent? hparent
  obtain ⟨moved, hok, hmoved⟩ :=
    (h.detach child).moved_insertChild helement hknown hne habove index
  have htwice : ∀ id, ((doc.detach child).children id).filter (· ≠ child) =
      (doc.children id).filter (· ≠ child) := by
    intro id
    rw [h.children_detach_eq, List.filter_filter]
    exact List.filter_congr fun c _ => Bool.and_self _
  -- behind the insertion every view is what it was before the removal
  suffices heq : moved = doc by rw [hok, heq]
  refine eq_of_views (fun id => (doc.sameContents_detach child id).trans (hmoved.sameContents id))
    (fun id => ?_) (fun id => ?_) ?_
  · by_cases hid : id = child
    · rw [hid, hmoved.parent?_child, hparent]
    · rw [hmoved.parent?_other id hid, parent?_detach, if_neg hid]
  · by_cases hid : id = parent
    · rw [hid, hmoved.children_parent, htwice, ← placeAt_eq_insertIdx]
      exact placeAt_filter (h.nodup_children parent) hindex
    · rw [hmoved.children_other id hid, htwice, List.filter_eq_self]
      intro c hc
      refine decide_eq_true fun heq => hid ?_
      have hcp := h.mem_children_iff.1 hc
      rw [heq, hparent] at hcp
      exact (Option.some.inj hcp).symm
  · -- the document element has no parent, so it is another node
    rw [hmoved.documentElement_eq, documentElement_detach, if_neg]
    intro hroot
    rw [(h.documentElement_root hroot).2] at hparent
    cases hparent

end WellFormed

/-! ## Appending -/

theorem mapChildren_congr {f g : List NodeId → List NodeId} {n : Node}
    (h : f n.children = g n.children) : n.mapChildren f = n.mapChildren g := by
  rcases n with ⟨_ | _ | _, _, _⟩ <;> simp_all [Node.mapChildren, Node.children]

/-- Where a child is placed matters for the children that the parent has. -/
theorem attach_congr {doc : Document} {parent child : NodeId}
    {place place' : List NodeId → List NodeId}
    (h : place (doc.children parent) = place' (doc.children parent)) :
    doc.attach parent child place = doc.attach parent child place' := by
  have hmodify : doc.modify parent (Node.mapChildren place) =
      doc.modify parent (Node.mapChildren place') := by
    refine congrArg (Document.mk · doc.documentElement) (Array.ext_getElem? fun id => ?_)
    change (doc.modify parent _).node? id = (doc.modify parent _).node? id
    rw [node?_modify, node?_modify]
    split
    · next hid =>
      subst hid
      cases hn : doc.node? id with
      | none => rfl
      | some n =>
        rw [children, hn] at h
        exact congrArg some (mapChildren_congr h)
    · rfl
  rw [attach, attach, hmodify]

end Document

/-- In a reachable document a known node is moved to any position under an element that is neither
the node nor below it, as `Moved` says. To append it is to insert it at a position that is not in
front of another child. -/
theorem insertChild_moved {doc : Document} (hdoc : Reachable doc) {parent child : NodeId}
    (hparent : doc.isElement parent = true) (hchild : child < doc.size) (hne : child ≠ parent)
    (habove : ¬ doc.Ancestor child parent) (index : Nat) :
    (∃ moved, doc.insertChild parent index child = .ok moved ∧
        doc.Moved parent index child moved) ∧
      (((doc.children parent).filter (· ≠ child)).length ≤ index →
        doc.appendChild parent child = doc.insertChild parent index child) := by
  have hwf := hdoc.wellFormed
  refine ⟨hwf.moved_insertChild hparent hchild hne habove index, fun hindex => ?_⟩
  rw [Document.appendChild, Document.insertChild, hwf.move_eq_ok hparent hchild hne habove,
    hwf.move_eq_ok hparent hchild hne habove]
  refine congrArg Except.ok (Document.attach_congr ?_)
  rw [hwf.children_detach_eq, Document.placeAt, List.take_of_length_le hindex,
    List.drop_of_length_le hindex]

/-- An element with three children, the first of which has a child. -/
def threeChildren : Document :=
  [Edit.createChild 0 (.named "b") (.named "b"), .createComment 0 "c",
    .createChild 0 (.named "d") (.named "d"), .createChild 1 (.named "e") (.named "e")].foldl
      Document.after (Document.withRoot (.named "a"))

/-- The first of three children moves behind the others, as its position counts without it. -/
theorem insertChild_threeChildren :
    ∃ moved, threeChildren.insertChild 0 2 1 = .ok moved ∧ threeChildren.children 0 = [1, 2, 3] ∧
      moved.children 0 = [2, 3, 1] ∧ moved.preorder 1 = [1, 4] ∧
      threeChildren.appendChild 0 1 = .ok moved := by
  have hreachable : Reachable threeChildren := (Reachable.withRoot (.named "a")).run _
  have habove : ¬ threeChildren.Ancestor 1 0 := Document.not_ancestor_of_root (by decide +kernel)
  have hparent : threeChildren.isElement 0 = true := by decide +kernel
  have hchild : 1 < threeChildren.size := by decide +kernel
  obtain ⟨⟨moved, hok, hmoved⟩, happend⟩ :=
    insertChild_moved hreachable hparent hchild (by decide) habove 2
  refine ⟨moved, hok, by decide +kernel, ?_, ?_, (happend (by decide +kernel)).trans hok⟩
  · rw [hmoved.children_parent]
    decide +kernel
  · rw [hmoved.preorder_child]
    decide +kernel

/-- A node with a parent stands at one position among its children. Removed and then inserted at
this position, it leaves the document as it was. -/
theorem insertChild_remove {doc : Document} (hdoc : Reachable doc) {parent child : NodeId}
    (hparent : doc.parent? child = some parent) :
    (∃! index : Nat, (doc.children parent)[index]? = some child) ∧
      ∀ index : Nat, (doc.children parent)[index]? = some child →
        ∃ removed, doc.remove child = .ok removed ∧
          removed.insertChild parent index child = .ok doc := by
  have hwf := hdoc.wellFormed
  have hmem := hwf.mem_children_iff.2 hparent
  constructor
  · obtain ⟨index, hlt, hindex⟩ := List.mem_iff_getElem.1 hmem
    refine ⟨index, List.getElem?_eq_some_iff.2 ⟨hlt, hindex⟩, fun other hother => ?_⟩
    obtain ⟨hlt', hother⟩ := List.getElem?_eq_some_iff.1 hother
    exact (hwf.nodup_children parent).getElem_inj_iff.1 (hother.trans hindex.symm)
  · intro index hindex
    refine ⟨doc.detach child, ?_, hwf.insertChild_detach hindex⟩
    rw [Document.remove, Document.need]
    cases hn : doc.node? child with
    | none =>
      have hunknown : doc.size ≤ child := doc.node?_eq_none_iff.1 hn
      exact absurd (Document.lt_size_of_parent? hparent) (Nat.not_lt.2 hunknown)
    | some n => rfl

/-- The middle one of three children is removed and put back. -/
theorem insertChild_remove_threeChildren :
    threeChildren.parent? 2 = some 0 ∧ ∃ removed, threeChildren.remove 2 = .ok removed ∧
      removed.children 0 = [1, 3] ∧ removed.insertChild 0 1 2 = .ok threeChildren := by
  have hreachable : Reachable threeChildren := (Reachable.withRoot (.named "a")).run _
  have hparent : threeChildren.parent? 2 = some 0 := by decide +kernel
  obtain ⟨removed, hremoved, hback⟩ :=
    (insertChild_remove hreachable hparent).2 1 (by decide +kernel)
  refine ⟨hparent, removed, hremoved, ?_, hback⟩
  have hdetach : threeChildren.remove 2 = .ok (threeChildren.detach 2) := by decide +kernel
  cases hdetach.symm.trans hremoved
  decide +kernel

end MarkupPath.Tree
