import MarkupPath.Evaluation.Axis
import MarkupPath.Proofs.Tree.Reachable
import MarkupPath.Proofs.Tree.Stepwise

/-!
# Upward and downward

The walk through a subtree reads children, the search for a node above another one reads parents.
In a reachable document both tell the same relation (`directions_agree`): the subtree of an element
has the elements that it stands above, in the order of a walk, and an element is a child of those
that are its parent.
-/

set_option autoImplicit false

namespace MarkupPath.Tree.Document

/-- Members of a sorted list without repetition are in the relation that it is sorted by exactly if
they stand in that order. -/
theorem idxOf_lt_idxOf_iff {R : NodeId → NodeId → Prop} (hasymm : ∀ {a b}, R a b → ¬ R b a)
    {ids : List NodeId} (hsorted : ids.Pairwise R) {x y : NodeId} (hx : x ∈ ids) (hy : y ∈ ids) :
    ids.idxOf x < ids.idxOf y ↔ R x y := by
  have hplaces : ∀ {x y : NodeId}, x ∈ ids → y ∈ ids → ids.idxOf x < ids.idxOf y → R x y := by
    intro x y hx hy hlt
    have hpair := List.pairwise_iff_getElem.1 hsorted (ids.idxOf x) (ids.idxOf y)
      (List.idxOf_lt_length_of_mem hx) (List.idxOf_lt_length_of_mem hy) hlt
    rwa [List.getElem_idxOf, List.getElem_idxOf] at hpair
  refine ⟨hplaces hx hy, fun hxy => ?_⟩
  rcases Nat.lt_trichotomy (ids.idxOf x) (ids.idxOf y) with hlt | heq | hgt
  · exact hlt
  · -- members at one place are one node, which does not come before itself
    rw [List.idxOf_inj hx] at heq
    subst heq
    exact absurd hxy (hasymm hxy)
  · exact absurd hxy (hasymm (hplaces hy hx hgt))

variable {doc : Document} (h : doc.WellFormed)

include h

namespace WellFormed

/-- The order of a walk, told by the search upward. -/
theorem precedes_iff {x y : NodeId} :
    doc.Precedes x y ↔
      doc.isAncestor x y = true ∨ ∃ p c d, [c, d].Sublist (doc.children p) ∧
        (x = c ∨ doc.isAncestor c x = true) ∧ (y = d ∨ doc.isAncestor d y = true) := by
  simp only [h.isAncestor_iff]
  constructor
  · rintro (habove | ⟨hsub, hcx, hdy⟩)
    · exact .inl habove
    · exact .inr ⟨_, _, _, hsub, hcx, hdy⟩
  · rintro (habove | ⟨p, c, d, hsub, hcx, hdy⟩)
    · exact .above habove
    · exact .beside hsub hcx hdy

theorem idxOf_elementsUnder_lt_iff {e x y : NodeId} (he : e < doc.size)
    (hx : x ∈ doc.elementsUnder e) (hy : y ∈ doc.elementsUnder e) :
    (doc.elementsUnder e).idxOf x < (doc.elementsUnder e).idxOf y ↔ doc.Precedes x y :=
  idxOf_lt_idxOf_iff h.precedes_asymm ((h.pairwise_preorder he).filter _) hx hy

end WellFormed

end MarkupPath.Tree.Document

namespace MarkupPath.Evaluation

open MarkupPath.Query MarkupPath.Tree Document

/-- In a reachable document the walk downward from an element ends and finds the elements that are
the element itself or have it above them, each once, every one before those below it, and the
subtrees of siblings in the order of the siblings. The search upward ends and finds the nodes that
are listed as standing above a node: its parent and those above that. An element is on the child
axis of another one exactly if that one is on its parent axis. -/
theorem directions_agree {doc : Document} (h : Reachable doc) :
    (∀ e, doc.isElement e = true →
      (∀ k, doc.size ≤ k → doc.descend^[k] ⟨[e], []⟩ = ⟨[], doc.elementsUnder e⟩) ∧
        (∀ n, n ∈ doc.elementsUnder e ↔
          doc.isElement n = true ∧ (n = e ∨ doc.isAncestor e n = true)) ∧
        (doc.elementsUnder e).Nodup ∧
        ∀ x ∈ doc.elementsUnder e, ∀ y ∈ doc.elementsUnder e,
          (doc.elementsUnder e).idxOf x < (doc.elementsUnder e).idxOf y ↔
            doc.isAncestor x y = true ∨ ∃ p c d, [c, d].Sublist (doc.children p) ∧
              (x = c ∨ doc.isAncestor c x = true) ∧ (y = d ∨ doc.isAncestor d y = true)) ∧
      (∀ a n,
        (∀ k, doc.size ≤ k →
          (doc.climb a)^[k] ⟨doc.parent? n, false⟩ = ⟨none, doc.isAncestor a n⟩) ∧
        doc.ancestors n = ((doc.parent? n).elim [] fun p => p :: doc.ancestors p) ∧
        (doc.isAncestor a n = true ↔ a ∈ doc.ancestors n)) ∧
      ∀ roots m n, doc.isElement m = true → doc.isElement n = true →
        (n ∈ navigate doc roots .child (.node m) ↔ m ∈ navigate doc roots .parent (.node n)) := by
  have hwf := h.wellFormed
  refine ⟨fun e he => ?_, fun a n => ?_, fun roots m n hm hn => ?_⟩
  · have hknown := lt_size_of_isElement he
    refine ⟨fun k hk => hwf.iterate_descend hknown hk, fun n => ?_,
      (hwf.nodup_preorder hknown).filter _, fun x hx y hy => ?_⟩
    · rw [hwf.mem_elementsUnder_iff hknown, hwf.isAncestor_iff, and_comm]
      exact Iff.rfl
    · rw [hwf.idxOf_elementsUnder_lt_iff hknown hx hy, hwf.precedes_iff]
  · refine ⟨fun k hk => hwf.iterate_climb a n hk, hwf.ancestors_eq n, ?_⟩
    rw [hwf.isAncestor_iff, hwf.mem_ancestors_iff]
  · -- both axes keep elements only, and children and parents tell one relation
    simp only [navigate, List.mem_filter, Option.mem_toList, hm, hn, and_true]
    exact hwf.mem_children_iff

/-- Edits that make a tree of elements with a comment among the children. -/
def branching : List Edit :=
  [.createChild 0 (.named "b") (.named "b"), .createChild 1 (.named "c") (.named "c"),
    .createComment 0 "x", .createChild 0 (.named "d") (.named "d")]

theorem directions_in_branching :
    let doc := branching.foldl after (Document.withRoot (.named "a"))
    doc.elementsUnder 0 = [0, 1, 2, 4] ∧ doc.descend^[5] ⟨[0], []⟩ = ⟨[], [0, 1, 2, 4]⟩ ∧
      doc.isAncestor 0 2 = true ∧ 0 ∈ doc.ancestors 2 ∧
      (doc.elementsUnder 0).idxOf 2 < (doc.elementsUnder 0).idxOf 4 ∧
      2 ∈ navigate doc [0] .child (.node 1) ∧ 1 ∈ navigate doc [0] .parent (.node 2) := by
  intro doc
  obtain ⟨hdown, hup, haxes⟩ :=
    directions_agree ((Reachable.withRoot (.named "a")).run branching)
  have hlist : doc.elementsUnder 0 = [0, 1, 2, 4] := by decide +kernel
  obtain ⟨hrun, hmem, -, horder⟩ := hdown 0 (by decide +kernel)
  have habove : doc.isAncestor 0 2 = true := by
    have htwo := ((hmem 2).1 (by decide +kernel)).2
    exact htwo.resolve_left (by decide)
  have hchild : 2 ∈ navigate doc [0] .child (.node 1) := by decide +kernel
  refine ⟨hlist, hlist ▸ hrun 5 (by decide +kernel), habove,
    (hup 0 2).2.2.1 habove, ?_, hchild,
    (haxes [0] 1 2 (by decide +kernel) (by decide +kernel)).1 hchild⟩
  -- below the first child of the root, and the last child
  exact (horder 2 (by decide +kernel) 4 (by decide +kernel)).2
    (.inr ⟨0, 1, 4, by decide +kernel, .inr (by decide +kernel), .inl rfl⟩)

end MarkupPath.Evaluation
