import MarkupPath.Proofs.Tree.Order
import Mathlib.Logic.Function.Iterate

/-!
# Walks step by step

Both walks of a document as machines that do one step at a time and know no count. A `Descent` takes
a node off a stack, passes over a marker, and replaces an element by its children; a `Search` goes
from a node to its parent until it meets the node that it looks for or a root. In a well-formed
document each machine stops within as many steps as the document has nodes, with what
`elementsUnder` and `isAncestor` give (`WellFormed.iterate_descend`, `WellFormed.iterate_climb`).

A step of a descent keeps the list of the elements found so far with those below the stack
(`WellFormed.descend_invariant`), and takes one node out of the subtrees of the stack
(`WellFormed.length_descend`).
-/

set_option autoImplicit false

namespace MarkupPath.Tree.Document

/-! ## The machines -/

/-- A walk downward under way: the nodes to look at, the next one first, and the elements found. -/
structure Descent where
  stack : List NodeId
  found : List NodeId
  deriving DecidableEq, Repr

/-- One step downward: a marker is passed over, and an element found; its children come next. -/
def descend (doc : Document) : Descent → Descent
  | ⟨[], found⟩ => ⟨[], found⟩
  | ⟨id :: stack, found⟩ =>
      if doc.isElement id then ⟨doc.children id ++ stack, found ++ [id]⟩ else ⟨stack, found⟩

/-- A search upward under way: the node to look at, if any is left, and whether the one that is
searched for was met. -/
structure Search where
  current : Option NodeId
  met : Bool
  deriving DecidableEq, Repr

/-- One step upward in search of a node: it is met, or the parent comes next. -/
def climb (doc : Document) (wanted : NodeId) : Search → Search
  | ⟨none, met⟩ => ⟨none, met⟩
  | ⟨some id, met⟩ => if id == wanted then ⟨none, true⟩ else ⟨doc.parent? id, met⟩

/-! ## Downward -/

namespace WellFormed

variable {doc : Document} (h : doc.WellFormed)

include h

/-- A marker has no elements below it, and an element itself and those below its children. -/
theorem elementsUnder_eq {id : NodeId} (hid : id < doc.size) :
    doc.elementsUnder id =
      if doc.isElement id then id :: (doc.children id).flatMap doc.elementsUnder else [] := by
  have hflat : ((doc.children id).flatMap doc.preorder).filter doc.isElement =
      (doc.children id).flatMap doc.elementsUnder := List.filter_flatMap
  rw [elementsUnder, h.preorder_eq hid]
  split
  · next helement => rw [List.filter_cons_of_pos helement, hflat]
  · next hmarker =>
    -- only elements have children
    rw [List.filter_cons_of_neg hmarker, hflat,
      doc.children_of_not_isElement (Bool.eq_false_iff.2 hmarker), List.flatMap_nil]

section Descent

variable {s : Descent} (hs : ∀ id ∈ s.stack, id < doc.size)

include hs

theorem known_descend : ∀ id ∈ (doc.descend s).stack, id < doc.size := by
  obtain ⟨_ | ⟨id, stack⟩, found⟩ := s
  · exact hs
  · rw [descend]
    obtain ⟨-, hstack⟩ := List.forall_mem_cons.1 hs
    split
    · intro c hc
      rcases List.mem_append.1 hc with hc | hc
      · exact h.child_lt_size hc
      · exact hstack c hc
    · exact hstack

/-- No step changes what is found in the end: the elements so far and those below the stack. -/
theorem descend_invariant :
    (doc.descend s).found ++ (doc.descend s).stack.flatMap doc.elementsUnder =
      s.found ++ s.stack.flatMap doc.elementsUnder := by
  obtain ⟨_ | ⟨id, stack⟩, found⟩ := s
  · rfl
  · rw [descend, List.flatMap_cons, h.elementsUnder_eq (hs id List.mem_cons_self)]
    split
    · simp only [List.flatMap_append, List.append_assoc, List.cons_append, List.nil_append]
    · rw [List.nil_append]

/-- Every step takes the first node out of the subtrees of the stack. -/
theorem preorder_descend :
    (doc.descend s).stack.flatMap doc.preorder = (s.stack.flatMap doc.preorder).tail := by
  obtain ⟨_ | ⟨id, stack⟩, found⟩ := s
  · rfl
  · rw [descend, List.flatMap_cons, h.preorder_eq (hs id List.mem_cons_self)]
    split
    · rw [List.flatMap_append, List.cons_append, List.tail_cons]
    · next hmarker =>
      -- a marker is all of its subtree
      rw [doc.children_of_not_isElement (Bool.eq_false_iff.2 hmarker), List.flatMap_nil,
        List.cons_append, List.tail_cons, List.nil_append]

theorem length_descend :
    ((doc.descend s).stack.flatMap doc.preorder).length =
      (s.stack.flatMap doc.preorder).length - 1 := by
  rw [h.preorder_descend hs, List.length_tail]

/-- The nodes that a descent takes off its stack, one at every step, are those of the subtrees in
order. -/
theorem head?_iterate_descend (k : Nat) :
    (doc.descend^[k] s).stack.head? = (s.stack.flatMap doc.preorder)[k]? := by
  induction k generalizing s with
  | zero =>
    obtain ⟨_ | ⟨id, stack⟩, found⟩ := s
    · rfl
    · rw [List.flatMap_cons, h.preorder_eq (hs id List.mem_cons_self)]
      rfl
  | succ k ih =>
    rw [Function.iterate_succ_apply, ih (h.known_descend hs), h.preorder_descend hs,
      List.getElem?_tail]

/-- A descent has looked at everything after as many steps as there are nodes in the subtrees of
its stack, and stays so. -/
theorem iterate_descend_of_length {n : Nat} (hn : (s.stack.flatMap doc.preorder).length ≤ n) :
    doc.descend^[n] s = ⟨[], s.found ++ s.stack.flatMap doc.elementsUnder⟩ := by
  induction n generalizing s with
  | zero =>
    obtain ⟨_ | ⟨id, stack⟩, found⟩ := s
    · simp
    · -- a node that is left has a subtree with at least itself in it
      rw [List.flatMap_cons, h.preorder_eq (hs id List.mem_cons_self)] at hn
      simp at hn
  | succ n ih =>
    have hless : ((doc.descend s).stack.flatMap doc.preorder).length ≤ n := by
      rw [h.length_descend hs]
      omega
    rw [Function.iterate_succ_apply, ih (h.known_descend hs) hless, h.descend_invariant hs]

end Descent

/-- The walk downward from a node ends, within as many steps as there are nodes, with the elements
of its subtree. -/
theorem iterate_descend {id : NodeId} (hid : id < doc.size) {n : Nat} (hn : doc.size ≤ n) :
    doc.descend^[n] ⟨[id], []⟩ = ⟨[], doc.elementsUnder id⟩ := by
  have hknown : ∀ x ∈ [id], x < doc.size := by simpa using hid
  have hrun := h.iterate_descend_of_length (s := ⟨[id], []⟩) hknown (n := n)
    (by simpa using Nat.le_trans (length_preorder_le id) hn)
  simpa using hrun

end WellFormed

/-! ## Upward -/

/-- An upward walk that does not use up its count does not depend on it. -/
theorem ancestorsFrom_succ_of_length_lt {doc : Document} {fuel : Nat} {start : Option NodeId}
    (hlength : (doc.ancestorsFrom fuel start).length < fuel) :
    doc.ancestorsFrom (fuel + 1) start = doc.ancestorsFrom fuel start := by
  induction fuel generalizing start with
  | zero => exact absurd hlength (Nat.not_lt_zero _)
  | succ fuel ih =>
    cases start with
    | none => rfl
    | some id =>
      rw [ancestorsFrom, List.length_cons] at hlength
      rw [ancestorsFrom, ih (Nat.lt_of_succ_lt_succ hlength), ancestorsFrom]

namespace WellFormed

variable {doc : Document} (h : doc.WellFormed)

include h

/-- The nodes above a node are its parent and the nodes above that, without any count. -/
theorem ancestors_eq (id : NodeId) :
    doc.ancestors id = (doc.parent? id).elim [] fun p => p :: doc.ancestors p := by
  cases hp : doc.parent? id with
  | none =>
    rw [ancestors, hp, Option.elim_none]
    cases doc.size <;> rfl
  | some p =>
    have hlength := h.length_ancestors_lt (lt_size_of_parent? hp)
    obtain ⟨size, hsize⟩ : ∃ size, doc.size = size + 1 := ⟨doc.size - 1, by omega⟩
    -- the walk from the parent has one node less to meet and does not use up its count either
    rw [ancestors, hp, hsize, ancestorsFrom, List.length_cons] at hlength
    rw [ancestors, hp, hsize, ancestorsFrom, Option.elim_some, ancestors, hsize,
      ancestorsFrom_succ_of_length_lt (Nat.lt_of_succ_lt_succ hlength)]

theorem isAncestor_eq_any (a id : NodeId) :
    doc.isAncestor a id = (doc.parent? id).any fun p => p == a || doc.isAncestor a p := by
  rw [Bool.eq_iff_iff, h.isAncestor_iff, ancestor_iff_parent]
  simp only [Option.any_eq_true, Bool.or_eq_true, beq_iff_eq, h.isAncestor_iff, Within]

/-- A search has come to its end after as many steps as there are nodes from its start upward. -/
theorem iterate_climb_of_length (a : NodeId) {start : Option NodeId} {n : Nat}
    (hn : ∀ id ∈ start, (doc.ancestors id).length < n) :
    (doc.climb a)^[n] ⟨start, false⟩ =
      ⟨none, start.any fun id => id == a || doc.isAncestor a id⟩ := by
  have hended : ∀ (k : Nat) (met : Bool), (doc.climb a)^[k] ⟨none, met⟩ = ⟨none, met⟩ :=
    fun k met => Function.iterate_fixed rfl k
  induction n generalizing start with
  | zero =>
    cases start with
    | none => rfl
    | some id => exact absurd (hn id rfl) (Nat.not_lt_zero _)
  | succ n ih =>
    cases start with
    | none => exact hended _ _
    | some id =>
      rw [Function.iterate_succ_apply, climb, Option.any_some]
      split
      · next hmet => rw [hended, hmet, Bool.true_or]
      · next hother =>
        -- above the parent there are fewer nodes than above the node
        have hparent : ∀ p ∈ doc.parent? id, (doc.ancestors p).length < n := fun p hp =>
          Nat.lt_of_lt_of_le (h.length_ancestors_lt_of_parent hp) (Nat.le_of_lt_succ (hn id rfl))
        rw [ih hparent, ← h.isAncestor_eq_any, Bool.eq_false_iff.2 hother, Bool.false_or]

/-- The search upward from the parent of a node ends, within as many steps as there are nodes, and
tells whether the other node stands above. -/
theorem iterate_climb (a id : NodeId) {n : Nat} (hn : doc.size ≤ n) :
    (doc.climb a)^[n] ⟨doc.parent? id, false⟩ = ⟨none, doc.isAncestor a id⟩ := by
  rw [h.isAncestor_eq_any a id]
  refine h.iterate_climb_of_length a fun p hp => ?_
  exact Nat.lt_of_lt_of_le (h.length_ancestors_lt (h.parent_lt_size hp)) hn

end WellFormed

end MarkupPath.Tree.Document
