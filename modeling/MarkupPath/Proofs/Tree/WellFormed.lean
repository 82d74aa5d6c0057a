import MarkupPath.Proofs.Tree.View
import MarkupPath.Tree.Walk

/-!
# Well-formed documents

`Document.Ancestor` follows parents upward, and `Document.Within` adds the node itself: it says that
a node belongs to the subtree of another one. A document is `WellFormed` if children and parents
tell the same relation, without repetition and without a cycle, if the attributes of a node have
different names, and if the document element is an element and a root.

The second half shows that the parts of edits keep a document well formed: a new node without
surroundings (`WellFormed.push`), a detached subtree (`WellFormed.detach`), a root put under an
element that is not inside its own subtree (`WellFormed.attach`), and a change that leaves the tree
relation alone (`WellFormed.of_views`). Between detaching and attaching the moved node is a root,
and that state is well formed as well, so a move needs no invariant of its own.
-/

set_option autoImplicit false

namespace MarkupPath.Tree

/-- A node as it is created: without children and parent, and with attributes of different names. -/
structure Node.Fresh (n : Node) : Prop where
  children_eq : n.children = []
  parent_eq : n.parent = none
  nodup_attributes : (n.attributes.map (·.name)).Nodup

namespace Document

/-! ## The tree relation -/

section Relation

variable {doc : Document} {a b c id p : NodeId}

/-- The second node belongs to the subtree of the first: it is that node or stands below it. -/
def Within (doc : Document) (a id : NodeId) : Prop := id = a ∨ doc.Ancestor a id

theorem Within.refl (doc : Document) (id : NodeId) : doc.Within id id := Or.inl rfl

theorem Ancestor.within (h : doc.Ancestor a id) : doc.Within a id := Or.inr h

theorem Ancestor.trans (hab : doc.Ancestor a b) (hbc : doc.Ancestor b c) : doc.Ancestor a c := by
  induction hbc with
  | parent hp => exact .step hp hab
  | step hp _ ih => exact .step hp ih

theorem Within.trans (hab : doc.Within a b) (hbc : doc.Within b c) : doc.Within a c := by
  rcases hab with rfl | hab
  · exact hbc
  · rcases hbc with rfl | hbc
    · exact .inr hab
    · exact .inr (hab.trans hbc)

theorem Within.trans_ancestor (hab : doc.Within a b) (hbc : doc.Ancestor b c) :
    doc.Ancestor a c := by
  rcases hab with rfl | hab
  · exact hbc
  · exact hab.trans hbc

theorem Ancestor.trans_within (hab : doc.Ancestor a b) (hbc : doc.Within b c) :
    doc.Ancestor a c := by
  rcases hbc with rfl | hbc
  · exact hab
  · exact hab.trans hbc

/-- To stand below a node is to have a parent in its subtree. -/
theorem ancestor_iff_parent :
    doc.Ancestor a id ↔ ∃ p, doc.parent? id = some p ∧ doc.Within a p := by
  constructor
  · intro h
    cases h with
    | parent hp => exact ⟨a, hp, .refl doc a⟩
    | step hp ha => exact ⟨_, hp, ha.within⟩
  · rintro ⟨p, hp, rfl | ha⟩
    · exact .parent hp
    · exact .step hp ha

/-- To stand below a node is to belong to the subtree of one of its children. -/
theorem ancestor_iff_child :
    doc.Ancestor a id ↔ ∃ c, doc.parent? c = some a ∧ doc.Within c id := by
  constructor
  · intro h
    induction h with
    | @parent id hp => exact ⟨id, hp, .refl doc id⟩
    | @step p id hp _ ih =>
      obtain ⟨c, hc, hcp⟩ := ih
      exact ⟨c, hc, hcp.trans (Ancestor.parent hp).within⟩
  · rintro ⟨c, hc, hw⟩
    exact (Ancestor.parent hc).trans_within hw

theorem not_ancestor_of_root (h : doc.parent? id = none) : ¬ doc.Ancestor a id := by
  intro ha
  obtain ⟨p, hp, -⟩ := ancestor_iff_parent.1 ha
  rw [h] at hp
  cases hp

/-- Only a root itself has that root in its subtree. -/
theorem Within.eq_of_root (h : doc.Within a id) (hroot : doc.parent? id = none) : id = a := by
  rcases h with rfl | ha
  · rfl
  · exact absurd ha (not_ancestor_of_root hroot)

theorem Ancestor.lt_size (h : doc.Ancestor a id) : id < doc.size := by
  obtain ⟨p, hp, -⟩ := ancestor_iff_parent.1 h
  exact lt_size_of_parent? hp

/-- The nodes above a node stand above each other. -/
theorem within_total (ha : doc.Within a id) (hb : doc.Within b id) :
    doc.Within a b ∨ doc.Within b a := by
  rcases ha with rfl | ha
  · exact .inr hb
  · -- upward from `id`: the parent is the only way up, so both relations pass through it
    induction ha with
    | @parent id hp =>
      rcases hb with rfl | hb
      · exact .inl (Ancestor.parent hp).within
      · obtain ⟨q, hq, hbq⟩ := ancestor_iff_parent.1 hb
        rw [hp] at hq
        cases hq
        exact .inr hbq
    | @step p id hp hap ih =>
      rcases hb with rfl | hb
      · exact .inl (Ancestor.step hp hap).within
      · obtain ⟨q, hq, hbq⟩ := ancestor_iff_parent.1 hb
        rw [hp] at hq
        cases hq
        exact ih hbq

/-- A document with fewer attached nodes has fewer pairs of nodes above each other. -/
theorem Ancestor.mono {doc' : Document}
    (hsub : ∀ {id p}, doc'.parent? id = some p → doc.parent? id = some p)
    (h : doc'.Ancestor a id) : doc.Ancestor a id := by
  induction h with
  | parent hp => exact .parent (hsub hp)
  | step hp _ ih => exact .step (hsub hp) ih

end Relation

/-! ## Well-formedness -/

/-- Children and parents tell the same relation, which is a forest; the attributes of a node have
different names; the document element is an element and a root. -/
structure WellFormed (doc : Document) : Prop where
  mem_children_iff : ∀ {p c : NodeId}, c ∈ doc.children p ↔ doc.parent? c = some p
  nodup_children : ∀ p : NodeId, (doc.children p).Nodup
  acyclic : ∀ id : NodeId, ¬ doc.Ancestor id id
  nodup_attributes : ∀ id : NodeId, ((doc.attributes id).map (·.name)).Nodup
  documentElement_root : ∀ {id : NodeId}, doc.documentElement = some id →
    doc.isElement id = true ∧ doc.parent? id = none

namespace WellFormed

variable {doc : Document} {a b c id p : NodeId}

theorem isElement_of_parent? (h : doc.WellFormed) (hp : doc.parent? c = some p) :
    doc.isElement p = true :=
  isElement_of_mem_children (h.mem_children_iff.2 hp)

theorem parent_lt_size (h : doc.WellFormed) (hp : doc.parent? c = some p) : p < doc.size :=
  lt_size_of_isElement (h.isElement_of_parent? hp)

theorem child_lt_size (h : doc.WellFormed) (hc : c ∈ doc.children p) : c < doc.size :=
  lt_size_of_parent? (h.mem_children_iff.1 hc)

theorem documentElement_lt_size (h : doc.WellFormed) (hid : doc.documentElement = some id) :
    id < doc.size :=
  lt_size_of_isElement (h.documentElement_root hid).1

/-- Every node that stands above another one is an element. -/
theorem isElement_of_ancestor (h : doc.WellFormed) (ha : doc.Ancestor a id) :
    doc.isElement a = true := by
  obtain ⟨c, hc, -⟩ := ancestor_iff_child.1 ha
  exact h.isElement_of_parent? hc

/-- The subtrees of two children of one node have no node in common. -/
theorem eq_of_siblings (h : doc.WellFormed) (ha : doc.parent? a = some p)
    (hb : doc.parent? b = some p) (haid : doc.Within a id) (hbid : doc.Within b id) : a = b := by
  have key : ∀ {x y : NodeId}, doc.parent? x = some p → doc.parent? y = some p →
      doc.Within x y → x = y := by
    intro x y hx hy hxy
    rcases hxy with rfl | hxy
    · rfl
    · -- strictly inside, `x` would be above its own parent
      obtain ⟨q, hq, hxq⟩ := ancestor_iff_parent.1 hxy
      rw [hy] at hq
      cases hq
      exact absurd (hxq.trans_ancestor (.parent hx)) (h.acyclic x)
  rcases within_total haid hbid with hab | hba
  · exact key ha hb hab
  · exact (key hb ha hba).symm

/-! ## Parts of edits -/

theorem empty : Document.empty.WellFormed where
  mem_children_iff := by simp [children, parent?, node?, Document.empty]
  nodup_children := by simp [children, node?, Document.empty]
  acyclic := fun id => not_ancestor_of_root (by simp [parent?, node?, Document.empty])
  nodup_attributes := by simp [attributes, node?, Document.empty]
  documentElement_root := by simp [Document.empty]

/-- A change that the tree relation and the document element do not see keeps a document well
formed, if it repeats no name of an attribute. -/
theorem of_views {doc' : Document} (h : doc.WellFormed)
    (hchildren : ∀ id, doc'.children id = doc.children id)
    (hparent : ∀ id, doc'.parent? id = doc.parent? id)
    (helement : ∀ id, doc'.isElement id = doc.isElement id)
    (hdocument : doc'.documentElement = doc.documentElement)
    (hattributes : ∀ id, ((doc'.attributes id).map (·.name)).Nodup) : doc'.WellFormed where
  mem_children_iff := by
    intro p c
    rw [hchildren, hparent]
    exact h.mem_children_iff
  nodup_children := by
    intro p
    rw [hchildren]
    exact h.nodup_children p
  acyclic := fun id hid => h.acyclic id (hid.mono fun hp => by rw [← hparent]; exact hp)
  nodup_attributes := hattributes
  documentElement_root := by
    intro id hid
    rw [helement, hparent]
    exact h.documentElement_root (hdocument ▸ hid)

/-- A new root without children keeps a document well formed. -/
theorem push (h : doc.WellFormed) {n : Node} (hn : n.Fresh) : (doc.push n).WellFormed where
  mem_children_iff := by
    intro p c
    rw [children_push, parent?_push]
    by_cases hp : p = doc.size
    · -- the new node has no children, and no old node has an unknown parent
      rw [if_pos hp, hn.children_eq]
      constructor
      · intro hc
        cases hc
      · intro hc
        split at hc
        · rw [hn.parent_eq] at hc
          cases hc
        · exact absurd (h.parent_lt_size hc) (hp ▸ Nat.lt_irrefl _)
    · rw [if_neg hp]
      by_cases hc : c = doc.size
      · -- the new node has no parent, and no old node has an unknown child
        rw [if_pos hc, hn.parent_eq]
        constructor
        · exact fun hmem => absurd (h.child_lt_size hmem) (hc ▸ Nat.lt_irrefl _)
        · exact fun hnone => nomatch hnone
      · rw [if_neg hc]
        exact h.mem_children_iff
  nodup_children := by
    intro p
    rw [children_push, hn.children_eq]
    split
    · exact List.nodup_nil
    · exact h.nodup_children p
  acyclic := by
    intro id hid
    refine h.acyclic id (hid.mono fun {c p} hp => ?_)
    rw [parent?_push, hn.parent_eq] at hp
    split at hp
    · cases hp
    · exact hp
  nodup_attributes := by
    intro id
    rw [attributes_push]
    split
    · exact hn.nodup_attributes
    · exact h.nodup_attributes id
  documentElement_root := by
    intro id hid
    have hroot := h.documentElement_root hid
    have hne : id ≠ doc.size := Nat.ne_of_lt (h.documentElement_lt_size hid)
    rw [isElement, kind?_push, parent?_push, if_neg hne, if_neg hne]
    exact hroot

/-- A subtree taken from its parent keeps a document well formed. -/
theorem detach (h : doc.WellFormed) (id : NodeId) : (doc.detach id).WellFormed where
  mem_children_iff := by
    intro p c
    rw [children_detach, parent?_detach]
    by_cases hp : doc.parent? id = some p
    · rw [if_pos hp, (h.nodup_children p).mem_erase_iff, h.mem_children_iff]
      by_cases hc : c = id <;> simp [hc]
    · rw [if_neg hp, h.mem_children_iff]
      by_cases hc : c = id
      · simp [hc, hp]
      · simp [hc]
  nodup_children := by
    intro p
    rw [children_detach]
    split
    · exact (h.nodup_children p).erase id
    · exact h.nodup_children p
  acyclic := by
    intro a ha
    refine h.acyclic a (ha.mono fun {c p} hp => ?_)
    rw [parent?_detach] at hp
    split at hp
    · cases hp
    · exact hp
  nodup_attributes := by
    intro a
    rw [attributes_detach]
    exact h.nodup_attributes a
  documentElement_root := by
    intro a ha
    rw [documentElement_detach] at ha
    obtain ⟨helement, hroot⟩ := h.documentElement_root ha
    refine ⟨by rw [isElement_detach]; exact helement, ?_⟩
    rw [parent?_detach, hroot, ite_self]

/-- Putting a root under a node adds only pairs that lead from that node, or from above it, into the
subtree of the root. -/
theorem ancestor_of_attach {parent child : NodeId} {place : List NodeId → List NodeId}
    (ha : (doc.attach parent child place).Ancestor a id) :
    doc.Ancestor a id ∨ (doc.Within a parent ∧ doc.Within child id) := by
  induction ha with
  | @parent id hp =>
    rw [parent?_attach] at hp
    split at hp
    · -- the new pair itself
      next hid =>
      cases hp
      exact .inr ⟨.refl doc _, .inl hid.1⟩
    · exact .inl (.parent hp)
  | @step p id hp _ ih =>
    rw [parent?_attach] at hp
    split at hp
    · -- the new pair is the lowest one, and all above it is old
      next hid =>
      cases hp
      rcases ih with ih | ⟨ih, -⟩
      · exact .inr ⟨ih.within, .inl hid.1⟩
      · exact .inr ⟨ih, .inl hid.1⟩
    · -- the lowest pair is old, and the new one may be above it
      rcases ih with ih | ⟨ih, hw⟩
      · exact .inl (.step hp ih)
      · exact .inr ⟨ih, hw.trans (Ancestor.parent hp).within⟩

/-- A root put under an element outside its own subtree keeps a document well formed. -/
theorem attach (h : doc.WellFormed) {parent child : NodeId} {place : List NodeId → List NodeId}
    (hparent : doc.isElement parent = true) (hchild : child < doc.size)
    (hroot : doc.parent? child = none) (houtside : ¬ doc.Within child parent)
    (hplace : ∀ l, (place l).Perm (child :: l)) :
    (doc.attach parent child place).WellFormed where
  mem_children_iff := by
    intro p c
    rw [children_attach, parent?_attach]
    by_cases hc : c = child
    · -- the moved node was no child of any node before
      subst hc
      simp only [hchild, and_self, if_true, Option.some.injEq]
      split
      · next hp => simp [(hplace _).mem_iff, hp.1]
      · next hp =>
        have hne : parent ≠ p := fun heq => hp ⟨heq.symm, heq ▸ hparent⟩
        simp [h.mem_children_iff, hroot, hne]
    · have hother : ¬ (c = child ∧ c < doc.size) := fun hand => hc hand.1
      rw [if_neg hother]
      split
      · rw [(hplace _).mem_iff, List.mem_cons, h.mem_children_iff]
        simp [hc]
      · exact h.mem_children_iff
  nodup_children := by
    intro p
    rw [children_attach]
    split
    · refine (hplace _).nodup_iff.2 (List.nodup_cons.2 ⟨?_, h.nodup_children p⟩)
      intro hmem
      rw [h.mem_children_iff, hroot] at hmem
      cases hmem
    · exact h.nodup_children p
  acyclic := by
    intro a ha
    -- a new cycle leads into the subtree of the root and from there up to the new parent
    rcases ancestor_of_attach ha with ha | ⟨hap, hca⟩
    · exact h.acyclic a ha
    · exact houtside (hca.trans hap)
  nodup_attributes := by
    intro id
    rw [attributes_attach]
    exact h.nodup_attributes id
  documentElement_root := by
    intro id hid
    rw [documentElement_attach] at hid
    split at hid
    · cases hid
    · next hne =>
      obtain ⟨helement, hnone⟩ := h.documentElement_root hid
      refine ⟨by rw [isElement_attach]; exact helement, ?_⟩
      rw [parent?_attach, hnone, if_neg]
      rintro ⟨rfl, -⟩
      exact hne hid

/-- A root element may become the document element. -/
theorem withDocumentElement (h : doc.WellFormed) (helement : doc.isElement id = true)
    (hroot : doc.parent? id = none) : { doc with documentElement := some id }.WellFormed where
  mem_children_iff := h.mem_children_iff
  nodup_children := h.nodup_children
  acyclic := by
    intro a ha
    refine h.acyclic a (Ancestor.mono ?_ ha)
    intro c p hp
    exact hp
  nodup_attributes := h.nodup_attributes
  documentElement_root := by
    intro a ha
    cases ha
    exact ⟨helement, hroot⟩

end WellFormed

end Document

end MarkupPath.Tree
