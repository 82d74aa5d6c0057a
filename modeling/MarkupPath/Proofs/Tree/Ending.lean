import MarkupPath.Proofs.Tree.Printing
import MarkupPath.Proofs.Tree.Stepwise

/-!
# Walks come to an end

No walk of a tree carries a bound or remembers where it was. `walks_end` tells for each of them how
many steps it takes in a reachable document: a walk to the parents takes one for every node above
its start, a walk downward one for every node of the subtree, and the printer at most two for a
node. All of them rest on the forest that every edit keeps: no node is above itself, so an upward
walk is a shorter one from the parent (`WellFormed.parent_induction`), and subtrees are apart from
each other, so a stack holds no node twice.
-/

set_option autoImplicit false

namespace MarkupPath.Tree

namespace Document

/-- A walk to the parents under way: the next node, if any is left, and the nodes met so far. -/
structure Ascent where
  next : Option NodeId
  met : List NodeId
  deriving DecidableEq, Repr

/-- One step upward: the node is met, and its parent comes next. -/
def ascend (doc : Document) : Ascent → Ascent
  | ⟨none, met⟩ => ⟨none, met⟩
  | ⟨some id, met⟩ => ⟨doc.parent? id, met ++ [id]⟩

/-- The parent of a node in its place, as long as there is one. -/
def rise (doc : Document) (id : NodeId) : NodeId := (doc.parent? id).getD id

namespace WellFormed

variable {doc : Document} (h : doc.WellFormed)

include h

theorem ancestors_of_root {id : NodeId} (hp : doc.parent? id = none) : doc.ancestors id = [] := by
  rw [h.ancestors_eq, hp, Option.elim_none]

theorem ancestors_of_parent {p id : NodeId} (hp : doc.parent? id = some p) :
    doc.ancestors id = p :: doc.ancestors p := by
  rw [h.ancestors_eq, hp, Option.elim_some]

theorem iterate_ascend (id : NodeId) (met : List NodeId) :
    doc.ascend^[(doc.ancestors id).length] ⟨doc.parent? id, met⟩ =
      ⟨none, met ++ doc.ancestors id⟩ := by
  induction id using h.parent_induction generalizing met with
  | step id ih =>
    cases hp : doc.parent? id with
    | none =>
      rw [h.ancestors_of_root hp, List.append_nil]
      rfl
    | some p =>
      rw [h.ancestors_of_parent hp, List.length_cons, Function.iterate_succ_apply, ascend, ih p hp,
        List.append_assoc, List.singleton_append]

theorem iterate_rise (id : NodeId) :
    doc.rise^[(doc.ancestors id).length] id = doc.top id := by
  induction id using h.parent_induction with
  | step id ih =>
    cases hp : doc.parent? id with
    | none =>
      rw [top, h.ancestors_of_root hp]
      rfl
    | some p =>
      rw [h.ancestors_of_parent hp, List.length_cons, Function.iterate_succ_apply, rise, hp,
        Option.getD_some, ih p hp, h.top_eq_of_within (Ancestor.parent hp).within]

theorem iterate_climb_length (a id : NodeId) :
    (doc.climb a)^[(doc.ancestors id).length] ⟨doc.parent? id, false⟩ =
      ⟨none, doc.isAncestor a id⟩ := by
  rw [h.isAncestor_eq_any a id]
  exact h.iterate_climb_of_length a fun p hp => h.length_ancestors_lt_of_parent hp

end WellFormed

end Document

open Document

/-- In a reachable document, from a known node: the search for a node above it, the walk over the
nodes above it, and the way to the root of its tree take fewer steps than the document has nodes;
the walk downward takes the nodes of the subtree off its stack, one at every step and each of them
once; and the printer works off its stack in at most twice as many steps as the subtree has
nodes. -/
theorem walks_end {doc : Document} (h : Reachable doc) {id : NodeId} (hid : id < doc.size) :
    (∀ a, ∃ k < doc.size,
        (doc.climb a)^[k] ⟨doc.parent? id, false⟩ = ⟨none, doc.isAncestor a id⟩) ∧
      (∃ k < doc.size, doc.ascend^[k] ⟨doc.parent? id, []⟩ = ⟨none, doc.ancestors id⟩) ∧
      (∃ k < doc.size, doc.rise^[k] id = doc.top id ∧ doc.parent? (doc.top id) = none) ∧
      (∀ k, (doc.descend^[k] ⟨[id], []⟩).stack.head? = (doc.preorder id)[k]?) ∧
      ((doc.preorder id).Nodup ∧ ∀ n, n ∈ doc.preorder id ↔ doc.Within id n) ∧
      ∀ options, ∃ k ≤ 2 * (doc.preorder id).length,
        ((doc.printStep options)^[k] (.start options id)).stack = [] := by
  have hwf := h.wellFormed
  have habove := hwf.length_ancestors_lt hid
  refine ⟨fun a => ⟨_, habove, hwf.iterate_climb_length a id⟩,
    ⟨_, habove, hwf.iterate_ascend id []⟩,
    ⟨_, habove, hwf.iterate_rise id, (hwf.top_spec id).2⟩, fun k => ?_,
    ⟨hwf.nodup_preorder hid, fun n => hwf.mem_preorder_iff hid⟩, fun options => ?_⟩
  · have hknown : ∀ x ∈ [id], x < doc.size := by simpa using hid
    rw [hwf.head?_iterate_descend (s := ⟨[id], []⟩) hknown, List.flatMap_singleton]
  · obtain ⟨t, ht, rfl⟩ := hwf.exists_holds hid
    exact ⟨t.entries, hwf.entries_le ht, by rw [ht.iterate_printStep (Nat.le_refl _)]⟩

/-- The rearranged nodes, upward from the lowest one and downward from the root. -/
theorem walks_end_rearrangement :
    let doc := rearrangement.foldl after (withRoot (.named "a"))
    (∃ k < 4, (doc.climb 0)^[k] ⟨some 3, false⟩ = ⟨none, true⟩) ∧
      (∃ k < 4, doc.ascend^[k] ⟨some 3, []⟩ = ⟨none, [3, 0]⟩) ∧
      (∃ k < 4, doc.rise^[k] 1 = 0) ∧
      (doc.descend^[2] ⟨[0], []⟩).stack.head? = some 1 ∧
      (doc.descend^[3] ⟨[0], []⟩).stack.head? = none ∧
      ∃ k ≤ 6, ((doc.printStep ⟨some 2, true⟩)^[k] (.start ⟨some 2, true⟩ 0)).stack = [] := by
  intro doc
  have hreachable : Reachable doc := (Reachable.withRoot (.named "a")).run _
  have hlow : 1 < doc.size := by decide +kernel
  have hroot : 0 < doc.size := by decide +kernel
  have hsize : doc.size = 4 := by decide +kernel
  have hparent : doc.parent? 1 = some 3 := by decide +kernel
  have habove : doc.ancestors 1 = [3, 0] := by decide +kernel
  have hbelow : doc.preorder 0 = [0, 3, 1] := by decide +kernel
  have hmet : doc.isAncestor 0 1 = true := by decide +kernel
  have htop : doc.top 1 = 0 := by decide +kernel
  obtain ⟨hclimb, hascend, ⟨k, hk, hrise, -⟩, -⟩ := walks_end hreachable hlow
  obtain ⟨-, -, -, hdescend, -, hprint⟩ := walks_end hreachable hroot
  rw [hparent, habove, hsize] at hascend
  rw [hbelow] at hprint
  refine ⟨?_, hascend, ⟨k, hsize ▸ hk, hrise.trans htop⟩, ?_, ?_, hprint _⟩
  · have hsearch := hclimb 0
    rwa [hparent, hmet, hsize] at hsearch
  · rw [hdescend, hbelow]
    rfl
  · rw [hdescend, hbelow]
    rfl

end MarkupPath.Tree
