import MarkupPath.Evaluation.Eval
import MarkupPath.Proofs.Tree.Order
import Mathlib.Data.List.Sort

/-!
# The order of an evaluation

`inOrder` sorts by the places in a list and drops repetitions. Given members of a list without
repetition, it is the part of that list that consists of them (`inOrder_eq_filter`), whatever order
they arrive in.

A setting is `Sound` if its document is well formed and its roots are known. Its order then lists
the elements of the trees around the roots in document order and each once, so a list is in document
order as soon as it is a part of it.
-/

set_option autoImplicit false

namespace MarkupPath.Evaluation

open MarkupPath.Tree

/-! ## Sorting -/

section Sorting

variable {order ids : List NodeId}

theorem mem_dropRepeats {id : NodeId} : id ∈ dropRepeats ids ↔ id ∈ ids := by
  induction ids using dropRepeats.induct with
  | case1 => rfl
  | case2 => rfl
  | case3 a b rest heq ih =>
    have hab : a = b := beq_iff_eq.1 heq
    rw [dropRepeats, if_pos heq, ih, hab]
    simp
  | case4 a b rest hne ih => rw [dropRepeats, if_neg hne, List.mem_cons, ih, ← List.mem_cons]

/-- In a sorted list equal members stand next to each other. -/
theorem pairwise_dropRepeats (hsub : ids ⊆ order)
    (hsorted : ids.Pairwise fun a b => order.idxOf a ≤ order.idxOf b) :
    (dropRepeats ids).Pairwise fun a b => order.idxOf a < order.idxOf b := by
  induction ids using dropRepeats.induct with
  | case1 => exact .nil
  | case2 id => exact List.pairwise_singleton _ _
  | case3 a b rest heq ih =>
    rw [dropRepeats, if_pos heq]
    exact ih (fun x hx => hsub (List.mem_cons_of_mem _ hx)) (List.pairwise_cons.1 hsorted).2
  | case4 a b rest hne ih =>
    rw [dropRepeats, if_neg hne]
    obtain ⟨hfirst, hrest⟩ := List.pairwise_cons.1 hsorted
    have hlater := ih (fun x hx => hsub (List.mem_cons_of_mem _ hx)) hrest
    refine List.pairwise_cons.2 ⟨?_, hlater⟩
    intro x hx
    -- different members have different places
    have hab : order.idxOf a < order.idxOf b := by
      refine Nat.lt_of_le_of_ne (hfirst b List.mem_cons_self) fun heq => hne ?_
      exact beq_iff_eq.2 ((List.idxOf_inj (hsub List.mem_cons_self)).1 heq)
    rcases List.mem_cons.1 (mem_dropRepeats.1 hx) with rfl | hx
    · exact hab
    · exact Nat.lt_of_lt_of_le hab ((List.pairwise_cons.1 hrest).1 x hx)

/-- Two lists that are sorted by their places in a list have the same members only if they are the
same. -/
theorem eq_of_pairwise_idxOf {first second : List NodeId}
    (hfirst : first.Pairwise fun a b => order.idxOf a < order.idxOf b)
    (hsecond : second.Pairwise fun a b => order.idxOf a < order.idxOf b)
    (hmem : ∀ id, id ∈ first ↔ id ∈ second) : first = second := by
  have hnodup : ∀ {l : List NodeId}, l.Pairwise (fun a b => order.idxOf a < order.idxOf b) →
      l.Nodup := by
    intro l hl
    refine hl.imp fun {a b} hab heq => ?_
    rw [heq] at hab
    exact Nat.lt_irrefl _ hab
  refine List.Perm.eq_of_pairwise (fun a b _ _ hab hba => absurd hab (Nat.lt_asymm hba)) hfirst
    hsecond ?_
  exact (List.perm_ext_iff_of_nodup (hnodup hfirst) (hnodup hsecond)).2 hmem

/-- Two parts of a list without repetition are the same if they have the same members. -/
theorem eq_of_sublist {first second : List NodeId} (hnodup : order.Nodup)
    (hfirst : first.Sublist order) (hsecond : second.Sublist order)
    (hmem : ∀ id, id ∈ first ↔ id ∈ second) : first = second := by
  have hsorted := Document.pairwise_idxOf hnodup
  exact eq_of_pairwise_idxOf (hsorted.sublist hfirst) (hsorted.sublist hsecond) hmem

/-- A part of a list without repetition consists of the members of the list that it has. -/
theorem eq_filter_of_sublist (hnodup : order.Nodup) (hsub : ids.Sublist order) :
    ids = order.filter (· ∈ ids) := by
  refine eq_of_sublist hnodup hsub List.filter_sublist fun id => ?_
  simp only [List.mem_filter, decide_eq_true_eq]
  exact ⟨fun hid => ⟨hsub.subset hid, hid⟩, And.right⟩

/-- Sorting members of a list without repetition picks them out of the list. -/
theorem inOrder_eq_filter (hnodup : order.Nodup) (hsub : ids ⊆ order) :
    inOrder order ids = order.filter (· ∈ ids) := by
  unfold inOrder
  extract_lets ranked
  -- sorting changes no members, and sorts them since the first parts are their places
  have hperm : ((ranked.mergeSort fun a b => a.1 ≤ b.1).map (·.2)).Perm ids := by
    refine ((List.mergeSort_perm ranked _).map _).trans (List.Perm.of_eq ?_)
    rw [List.map_map]
    exact List.map_id ids
  have hsorted : ((ranked.mergeSort fun a b => a.1 ≤ b.1).map (·.2)).Pairwise
      fun a b => order.idxOf a ≤ order.idxOf b := by
    rw [List.pairwise_map]
    have hpairs := @List.pairwise_mergeSort (Nat × NodeId) (fun a b => decide (a.1 ≤ b.1))
      (fun a b c hab hbc => by simp at hab hbc ⊢; omega) (fun a b => by simp; omega) ranked
    refine hpairs.imp_of_mem fun {a b} ha hb hab => ?_
    have hrank : ∀ {entry : Nat × NodeId}, entry ∈ ranked.mergeSort (fun a b => a.1 ≤ b.1) →
        entry.1 = order.idxOf entry.2 := by
      intro entry hentry
      obtain ⟨id, -, rfl⟩ := List.mem_map.1 (List.mem_mergeSort.1 hentry)
      rfl
    rw [← hrank ha, ← hrank hb]
    exact of_decide_eq_true hab
  have hmem : ∀ id, id ∈ dropRepeats ((ranked.mergeSort fun a b => a.1 ≤ b.1).map (·.2)) ↔
      id ∈ ids := fun id => mem_dropRepeats.trans hperm.mem_iff
  have hstrict := pairwise_dropRepeats (fun id hid => hsub (hperm.mem_iff.1 hid)) hsorted
  refine eq_of_pairwise_idxOf hstrict ((Document.pairwise_idxOf hnodup).filter _) fun id => ?_
  rw [hmem, List.mem_filter, decide_eq_true_eq]
  exact ⟨fun hid => ⟨hsub hid, hid⟩, And.right⟩

end Sorting

/-! ## Sound settings -/

namespace Setting

/-- The setting of an evaluation over known roots of a well-formed document. -/
structure Sound (env : Setting) : Prop where
  wellFormed : env.doc.WellFormed
  known : ∀ r ∈ env.roots, r < env.doc.size
  order_eq : env.order = env.doc.elementsAround env.roots

/-- The node belongs to the tree of one of the roots. -/
def Around (env : Setting) (id : NodeId) : Prop := ∃ r ∈ env.roots, env.doc.SameTree r id

theorem Sound.of {doc : Document} {roots : List NodeId} (hdoc : doc.WellFormed)
    (hknown : ∀ r ∈ roots, r < doc.size) (limit : Option Nat) :
    (Setting.of doc roots limit).Sound :=
  ⟨hdoc, hknown, rfl⟩

namespace Sound

variable {env : Setting} {id : NodeId} {ids : List NodeId}

theorem mem_order_iff (h : env.Sound) :
    id ∈ env.order ↔ env.doc.isElement id = true ∧ env.Around id := by
  rw [h.order_eq, h.wellFormed.mem_elementsAround_iff h.known]
  rfl

theorem nodup_order (h : env.Sound) : env.order.Nodup := by
  rw [h.order_eq]
  exact h.wellFormed.nodup_elementsAround h.known

theorem pairwise_order (h : env.Sound) : env.order.Pairwise (env.doc.Before env.roots) := by
  rw [h.order_eq]
  exact h.wellFormed.pairwise_elementsAround h.known

theorem around_of_mem (h : env.Sound) {r : NodeId} (hr : r ∈ env.roots) : env.Around r :=
  ⟨r, hr, h.wellFormed.sameTree_iff.2 rfl⟩

/-- Above and below a node lies only its own tree. -/
theorem around_of_within (h : env.Sound) {a : NodeId} (hw : env.doc.Within a id) :
    env.Around a ↔ env.Around id := by
  simp only [Around, h.wellFormed.sameTree_iff, h.wellFormed.top_eq_of_within hw]

theorem lt_size_of_around (h : env.Sound) (hid : env.Around id) : id < env.doc.size := by
  obtain ⟨r, hr, hsame⟩ := hid
  have htop := h.wellFormed.top_lt_size (h.known r hr)
  rw [h.wellFormed.sameTree_iff.1 hsame] at htop
  rcases (h.wellFormed.top_spec id).1 with heq | ha
  · rw [heq]
    exact htop
  · exact ha.lt_size

/-- The elements of a subtree are a part of the order. -/
theorem elementsUnder_sublist_order (h : env.Sound) (hid : env.Around id) :
    (env.doc.elementsUnder id).Sublist env.order := by
  have hwf := h.wellFormed
  obtain ⟨r, hr, hsame⟩ := hid
  have htop : env.doc.top id ∈ (env.roots.map env.doc.top).eraseDups := by
    rw [← hwf.sameTree_iff.1 hsame]
    exact List.mem_eraseDups.2 (List.mem_map_of_mem hr)
  have hwhole : (env.doc.elementsUnder (env.doc.top id)).Sublist env.order := by
    rw [h.order_eq, Document.elementsAround, List.flatMap]
    exact List.sublist_flatten_of_mem (List.mem_map_of_mem htop)
  have hsub := hwf.preorder_sublist_preorder (hwf.top_lt_size_of_mem h.known htop)
    (hwf.top_spec id).1
  exact (hsub.filter env.doc.isElement).trans hwhole

theorem sorted_eq_filter (h : env.Sound) (hsub : ids ⊆ env.order) :
    env.sorted ids = env.order.filter (· ∈ ids) :=
  inOrder_eq_filter h.nodup_order hsub

theorem sorted_sublist_order (h : env.Sound) (hsub : ids ⊆ env.order) :
    (env.sorted ids).Sublist env.order := by
  rw [h.sorted_eq_filter hsub]
  exact List.filter_sublist

theorem mem_sorted_iff (h : env.Sound) (hsub : ids ⊆ env.order) :
    id ∈ env.sorted ids ↔ id ∈ ids := by
  rw [h.sorted_eq_filter hsub, List.mem_filter, decide_eq_true_eq]
  exact ⟨And.right, fun hid => ⟨hsub hid, hid⟩⟩

end Sound

end Setting

end MarkupPath.Evaluation
