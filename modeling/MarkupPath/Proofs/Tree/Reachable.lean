import MarkupPath.Proofs.Tree.Assembly

/-!
# Reachable documents

A document is `Reachable` if a run of edits, refused ones included, leads to it from the empty
document, from a document of one element, or from one that a text writes. Every reachable document
is well formed (`Reachable.wellFormed`), and `forest_of_reachable` spells out what that means for
the nodes, their identities and the walks over them.
-/

set_option autoImplicit false

namespace MarkupPath.Tree

/-- The documents that runs of edits lead to. -/
inductive Reachable : Document → Prop where
  | empty : Reachable Document.empty
  | withRoot {spec : ElementSpec} : spec.Built → Reachable (Document.withRoot spec)
  | ofMarkup {options : ReadOptions} {text : List Char} {doc : Document} :
      Document.ofMarkup options text = .ok doc → Reachable doc
  | edit {doc : Document} (edit : Edit) : Reachable doc → Reachable (doc.after edit)

open Document

theorem Document.WellFormed.withRoot {spec : ElementSpec} (h : spec.Built) :
    (Document.withRoot spec).WellFormed := by
  have hpush := WellFormed.empty.push (ElementSpec.fresh_node h.nodup)
  refine hpush.withDocumentElement ?_ ?_
  · rw [isElement, kind?_push, if_pos rfl]
    rfl
  · rw [parent?_push, if_pos rfl]
    rfl

namespace Reachable

variable {doc : Document}

theorem wellFormed (h : Reachable doc) : doc.WellFormed := by
  induction h with
  | empty => exact .empty
  | withRoot built => exact .withRoot built
  | ofMarkup hok => exact wellFormed_of_ofMarkup hok
  | edit edit _ ih => exact ih.after edit

theorem run (h : Reachable doc) (edits : List Edit) : Reachable (edits.foldl after doc) := by
  induction edits generalizing doc with
  | nil => exact h
  | cons edit edits ih => exact ih (.edit edit h)

end Reachable

/-- In a reachable document every stored identity is known; children and parents tell the same
relation, each child once, and no node is above itself; only elements have children and attributes,
and no name of an attribute is repeated; the document element is an element without a parent; and
the walks of the nodes without a parent meet every node exactly once.

All but one of these are invariants of the edits. That comments and sections of character data are
bare is carried by `Content`, which has no place for their children; what the edits add to it is
that they refuse such a node as a parent or as the owner of an attribute, in every reachable
document (`Reachable.outcome_of_isMarker`). -/
theorem forest_of_reachable {doc : Document} (h : Reachable doc) :
    (∀ p, ∀ c ∈ doc.children p, c < doc.size) ∧
      (∀ c p, doc.parent? c = some p → p < doc.size) ∧
      (∀ id, doc.documentElement = some id → id < doc.size) ∧
      (∀ p c, c ∈ doc.children p ↔ doc.parent? c = some p) ∧
      (∀ p c, doc.parent? c = some p → (doc.children p).count c = 1) ∧
      (∀ id, ¬ doc.Ancestor id id) ∧
      (∀ id, doc.kind? id = some .comment ∨ doc.kind? id = some .cdata →
        doc.children id = [] ∧ doc.attributes id = []) ∧
      (∀ id, ((doc.attributes id).map (·.name)).Nodup) ∧
      (∀ id, doc.documentElement = some id →
        doc.isElement id = true ∧ doc.parent? id = none) ∧
      (doc.roots.flatMap doc.preorder).Perm (List.range doc.size) := by
  have hwf := h.wellFormed
  refine ⟨fun p c hc => hwf.child_lt_size hc, fun c p hp => hwf.parent_lt_size hp,
    fun id hid => hwf.documentElement_lt_size hid, fun p c => hwf.mem_children_iff, ?_,
    hwf.acyclic, ?_, hwf.nodup_attributes, fun id hid => hwf.documentElement_root hid,
    hwf.perm_flatMap_preorder⟩
  · intro p c hp
    exact List.count_eq_one_of_mem (hwf.nodup_children p) (hwf.mem_children_iff.2 hp)
  · -- comments and character data are the nodes that are no elements
    intro id hkind
    have hmarker : doc.isElement id = false := by
      rw [isElement]
      rcases hkind with hkind | hkind <;> (rw [hkind]; rfl)
    exact ⟨doc.children_of_not_isElement hmarker, doc.attributes_of_not_isElement hmarker⟩

/-- Edits with a marker, a move below another tree, a refused move below the own subtree, a move
back, and a removal. -/
def rearrangement : List Edit :=
  [.createChild 0 (.named "b") (.named "b"), .createComment 1 "c",
    .createElement (.named "d") (.named "d"), .insertChild 3 0 1, .appendChild 1 3,
    .appendChild 0 3, .remove 2]

theorem forest_after_rearrangement :
    let doc := rearrangement.foldl after (Document.withRoot (.named "a"))
    doc.size = 4 ∧ doc.parent? 1 = some 3 ∧ doc.parent? 3 = some 0 ∧ doc.parent? 2 = none ∧
      (doc.children 3).count 1 = 1 ∧ ¬ doc.Ancestor 3 3 ∧
      (doc.roots.flatMap doc.preorder).Perm (List.range doc.size) := by
  have hparent :
      (rearrangement.foldl after (Document.withRoot (.named "a"))).parent? 1 = some 3 := by
    decide +kernel
  obtain ⟨-, -, -, -, hcount, hacyclic, -, -, -, hperm⟩ :=
    forest_of_reachable ((Reachable.withRoot (.named "a")).run rearrangement)
  exact ⟨by decide +kernel, hparent, by decide +kernel, by decide +kernel, hcount 3 1 hparent,
    hacyclic 3, hperm⟩

end MarkupPath.Tree
