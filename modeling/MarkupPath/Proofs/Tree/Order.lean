import MarkupPath.Proofs.Tree.Walk

/-!
# Document order

`Document.Precedes` is the order of a walk through one tree, told by children and parents alone: a
node comes before all that is below it, and the subtree of a child before those of the later
children. `Document.Before` extends it to the trees of some roots, which follow each other as their
first roots do. Neither relation holds both ways (`WellFormed.precedes_asymm`,
`WellFormed.before_asymm`).

Walks come out in this order: `preorder` in the order of its tree
(`WellFormed.pairwise_preorder`), and `elementsAround` in that of all trees
(`WellFormed.pairwise_elementsAround`).
-/

set_option autoImplicit false

namespace MarkupPath.Tree.Document

/-! ## Places in a list -/

/-- A list without repetition is sorted by the places of its members. -/
theorem pairwise_idxOf {ids : List NodeId} (hnodup : ids.Nodup) :
    ids.Pairwise fun a b => ids.idxOf a < ids.idxOf b := by
  rw [List.pairwise_iff_getElem]
  intro i j hi hj hij
  rw [hnodup.idxOf_getElem i hi, hnodup.idxOf_getElem j hj]
  exact hij

/-- Of two members that are left when repetitions are dropped, some occurrence of the first one
comes before every occurrence of the second one. -/
theorem pairwise_eraseDups (ids : List NodeId) :
    ids.eraseDups.Pairwise fun a b =>
      ∃ earlier later, ids = earlier ++ a :: later ∧ b ∉ earlier ++ [a] := by
  -- on the length, since the tail is filtered before it is looked at
  induction hn : ids.length using Nat.strongRecOn generalizing ids with
  | ind n ih =>
    cases ids with
    | nil => exact .nil
    | cons x rest =>
      rw [List.eraseDups_cons]
      refine List.pairwise_cons.2 ⟨fun b hb => ?_, ?_⟩
      · have hne : b ≠ x := by simpa using (List.mem_filter.1 (List.mem_eraseDups.1 hb)).2
        exact ⟨[], rest, rfl, by simpa using hne⟩
      · have hless := List.length_filter_le (fun y => !y == x) rest
        have hpairs := ih _ (by rw [← hn, List.length_cons]; omega)
          (rest.filter fun y => !y == x) rfl
        refine hpairs.imp_of_mem fun {a b} _ hb hab => ?_
        have hbx : b ≠ x := by simpa using (List.mem_filter.1 (List.mem_eraseDups.1 hb)).2
        -- the occurrence in the filtered tail comes from one in the tail
        obtain ⟨earlier, later, hsplit, hnot⟩ := hab
        obtain ⟨first, second, rfl, rfl, hsecond⟩ := List.filter_eq_append_iff.1 hsplit
        obtain ⟨skipped, last, rfl, hskipped, -, -⟩ := List.filter_eq_cons_iff.1 hsecond
        refine ⟨x :: (first ++ skipped), last, by simp, ?_⟩
        simp only [List.cons_append, List.mem_cons, List.mem_append, List.mem_filter,
          List.append_assoc, not_or] at hnot ⊢
        refine ⟨hbx, fun hfirst => hnot.1 ⟨hfirst, by simpa using hbx⟩, fun hskip => ?_, hnot.2⟩
        exact hskipped b hskip (by simpa using hbx)

/-! ## The relations -/

/-- The first node comes before the second one in their tree. -/
inductive Precedes (doc : Document) (a b : NodeId) : Prop where
  | above : doc.Ancestor a b → Precedes doc a b
  | beside {p c d : NodeId} : [c, d].Sublist (doc.children p) →
      doc.Within c a → doc.Within d b → Precedes doc a b

/-- The two nodes belong to one tree. -/
def SameTree (doc : Document) (a b : NodeId) : Prop := ∃ t, doc.Within t a ∧ doc.Within t b

/-- The first node comes before the second one in the trees of some roots: in one tree as in the
walk through it, and otherwise if a root of its tree comes before all roots of the other tree. -/
inductive Before (doc : Document) (roots : List NodeId) (a b : NodeId) : Prop where
  | inside : doc.Precedes a b → Before doc roots a b
  | across {earlier later : List NodeId} {r : NodeId} : roots = earlier ++ r :: later →
      doc.SameTree r a → (∀ s ∈ earlier ++ [r], ¬ doc.SameTree s b) → Before doc roots a b

variable {doc : Document} {a b c d id n p : NodeId} {roots : List NodeId}

namespace WellFormed

section

variable (h : doc.WellFormed)

include h

theorem sameTree_iff : doc.SameTree a b ↔ doc.top a = doc.top b := by
  constructor
  · rintro ⟨t, ha, hb⟩
    rw [h.top_eq_of_within ha, h.top_eq_of_within hb]
  · intro heq
    exact ⟨doc.top a, (h.top_spec a).1, heq ▸ (h.top_spec b).1⟩

theorem sameTree_of_precedes (hab : doc.Precedes a b) : doc.SameTree a b := by
  cases hab with
  | above ha => exact ⟨a, .refl doc a, ha.within⟩
  | @beside p c d hsub hca hdb =>
    have hc := h.mem_children_iff.1 (hsub.subset List.mem_cons_self)
    have hd := h.mem_children_iff.1 (hsub.subset (List.mem_cons_of_mem _ List.mem_cons_self))
    exact ⟨p, (Ancestor.parent hc).within.trans hca, (Ancestor.parent hd).within.trans hdb⟩

/-! ## Asymmetry -/

theorem parents_of_sublist (hsub : [c, d].Sublist (doc.children p)) :
    doc.parent? c = some p ∧ doc.parent? d = some p ∧ c ≠ d := by
  have hnodup := (h.nodup_children p).sublist hsub
  refine ⟨h.mem_children_iff.1 (hsub.subset List.mem_cons_self),
    h.mem_children_iff.1 (hsub.subset (List.mem_cons_of_mem _ List.mem_cons_self)), ?_⟩
  rintro rfl
  exact (List.nodup_cons.1 hnodup).1 List.mem_cons_self

/-- Two nodes in the subtrees of different children are not both in one subtree below. -/
theorem not_within_of_siblings (hsub : [c, d].Sublist (doc.children p)) (hca : doc.Within c a)
    (hdb : doc.Within d b) {q : NodeId} (hpq : doc.Ancestor p q) :
    ¬ (doc.Within q a ∧ doc.Within q b) := by
  rintro ⟨hqa, hqb⟩
  obtain ⟨hc, hd, hne⟩ := h.parents_of_sublist hsub
  obtain ⟨e, he, heq⟩ := ancestor_iff_child.1 hpq
  have hce := h.eq_of_siblings hc he hca (heq.trans hqa)
  have hde := h.eq_of_siblings hd he hdb (heq.trans hqb)
  exact hne (hce.trans hde.symm)

/-- Of two nodes at most one precedes the other, as no node is above itself. -/
theorem precedes_asymm (hab : doc.Precedes a b) : ¬ doc.Precedes b a := by
  -- a node above another one does not stand beside it as well
  have key : ∀ {a b p c d : NodeId}, doc.Ancestor a b → [c, d].Sublist (doc.children p) →
      doc.Within c b → ¬ doc.Within d a := by
    intro a b p c d habove hsub hcb hda
    obtain ⟨hc, hd, hne⟩ := h.parents_of_sublist hsub
    exact hne (h.eq_of_siblings hc hd hcb (hda.trans habove.within))
  intro hba
  cases hab with
  | above habove =>
    cases hba with
    | above hbelow => exact h.acyclic a (habove.trans hbelow)
    | beside hsub hcb hda => exact key habove hsub hcb hda
  | @beside p c d hsub hca hdb =>
    cases hba with
    | above hbelow => exact key hbelow hsub hca hdb
    | @beside q e f hsub' heb hfa =>
      obtain ⟨hc, hd, hne⟩ := h.parents_of_sublist hsub
      obtain ⟨he, hf, -⟩ := h.parents_of_sublist hsub'
      have hpa := (Ancestor.parent hc).within.trans hca
      have hpb := (Ancestor.parent hd).within.trans hdb
      have hqa := (Ancestor.parent hf).within.trans hfa
      have hqb := (Ancestor.parent he).within.trans heb
      -- both parents stand above `a`, so they are in one line
      have hcases : q = p ∨ doc.Ancestor p q ∨ doc.Ancestor q p := by
        rcases within_total hpa hqa with (heq | hpq) | (heq | hqp)
        · exact .inl heq
        · exact .inr (.inl hpq)
        · exact .inl heq.symm
        · exact .inr (.inr hqp)
      rcases hcases with rfl | hpq | hqp
      · -- one parent: the same two children would stand in both orders
        cases h.eq_of_siblings hc hf hca hfa
        cases h.eq_of_siblings hd he hdb heb
        have hplaces : ∀ {x y : NodeId}, [x, y].Sublist (doc.children q) →
            (doc.children q).idxOf x < (doc.children q).idxOf y :=
          List.pairwise_iff_forall_sublist.1 (pairwise_idxOf (h.nodup_children q))
        exact Nat.lt_asymm (hplaces hsub) (hplaces hsub')
      · exact h.not_within_of_siblings hsub hca hdb hpq ⟨hqa, hqb⟩
      · exact h.not_within_of_siblings hsub' heb hfa hqp ⟨hpb, hpa⟩

/-- The same where nodes of several trees are compared, first by the places of their trees. -/
theorem before_asymm (hab : doc.Before roots a b) : ¬ doc.Before roots b a := by
  -- inside one tree no root comes before the other node's
  have key : ∀ {a b : NodeId}, doc.Precedes a b → ∀ {r earlier}, doc.SameTree r b →
      ¬ ∀ s ∈ earlier ++ [r], ¬ doc.SameTree s a := by
    intro a b hprecedes r earlier hr hall
    refine hall r (List.mem_append_right _ List.mem_cons_self) (h.sameTree_iff.2 ?_)
    rw [h.sameTree_iff.1 hr, h.sameTree_iff.1 (h.sameTree_of_precedes hprecedes)]
  have split : ∀ {earlier later : List NodeId} {r : NodeId}, roots = earlier ++ r :: later →
      (earlier ++ [r]) <+: roots := by
    rintro earlier later r rfl
    exact ⟨later, by simp⟩
  intro hba
  cases hab with
  | inside hprecedes =>
    cases hba with
    | inside hprecedes' => exact h.precedes_asymm hprecedes hprecedes'
    | across _ hr hall => exact key hprecedes hr hall
  | @across earlier later r hroots hr hall =>
    cases hba with
    | inside hprecedes' => exact key hprecedes' hr hall
    | @across earlier' later' r' hroots' hr' hall' =>
      -- of the two parts of the roots the longer one holds both roots
      rcases List.prefix_or_prefix_of_prefix (split hroots) (split hroots') with hle | hle
      · exact hall' r (hle.subset (List.mem_append_right _ List.mem_cons_self)) hr
      · exact hall r' (hle.subset (List.mem_append_right _ List.mem_cons_self)) hr'

/-! ## Walks through one tree -/

/-- The pre-order lists a subtree in document order. -/
theorem pairwise_preorder (hid : id < doc.size) : (doc.preorder id).Pairwise doc.Precedes := by
  induction id using h.child_induction with
  | step p ih =>
    rw [h.preorder_eq hid]
    refine List.pairwise_cons.2 ⟨fun n hn => ?_, List.pairwise_flatMap.2 ⟨fun c hc => ?_, ?_⟩⟩
    · -- the node is above all that follows it
      obtain ⟨c, hc, hn⟩ := List.mem_flatMap.1 hn
      have hw := (h.mem_preorder_iff (h.child_lt_size hc)).1 hn
      exact .above ((Ancestor.parent (h.mem_children_iff.1 hc)).trans_within hw)
    · exact ih c (h.mem_children_iff.1 hc) (h.child_lt_size hc)
    · -- of two children the earlier one comes first with its subtree
      rw [List.pairwise_iff_forall_sublist]
      intro c d hsub x hx y hy
      have hc := h.child_lt_size (hsub.subset List.mem_cons_self)
      have hd := h.child_lt_size (hsub.subset (List.mem_cons_of_mem _ List.mem_cons_self))
      exact .beside hsub ((h.mem_preorder_iff hc).1 hx) ((h.mem_preorder_iff hd).1 hy)

/-- The walk through a subtree is a part of the walk through a larger one. -/
theorem preorder_sublist_preorder (ha : a < doc.size) (hw : doc.Within a id) :
    (doc.preorder id).Sublist (doc.preorder a) := by
  have hparent : ∀ {p c : NodeId}, doc.parent? c = some p →
      (doc.preorder c).Sublist (doc.preorder p) := by
    intro p c hc
    rw [h.preorder_eq (h.parent_lt_size hc), List.flatMap]
    refine (List.sublist_flatten_of_mem ?_).cons p
    exact List.mem_map_of_mem (h.mem_children_iff.2 hc)
  rcases hw with rfl | hw
  · exact List.Sublist.refl _
  · induction hw with
    | parent hp => exact hparent hp
    | step hp _ ih => exact (hparent hp).trans ih

/-- The children of a node are met in their order. -/
theorem children_sublist_preorder (hid : id < doc.size) :
    (doc.children id).Sublist (doc.preorder id) := by
  have key : ∀ cs : List NodeId, (∀ c ∈ cs, c < doc.size) →
      cs.Sublist (cs.flatMap doc.preorder) := by
    intro cs
    induction cs with
    | nil => exact fun _ => .slnil
    | cons c cs ih =>
      intro hcs
      rw [List.flatMap_cons, h.preorder_eq (hcs c List.mem_cons_self), List.cons_append]
      refine List.Sublist.cons_cons c ((ih fun d hd => ?_).trans (List.sublist_append_right _ _))
      exact hcs d (List.mem_cons_of_mem _ hd)
  rw [h.preorder_eq hid]
  exact (key _ fun c hc => h.child_lt_size hc).cons id

theorem mem_elementsUnder_iff (hid : id < doc.size) :
    n ∈ doc.elementsUnder id ↔ doc.Within id n ∧ doc.isElement n = true := by
  rw [elementsUnder, List.mem_filter, h.mem_preorder_iff hid]

end

/-! ## Walks through the trees of roots -/

section

variable (h : doc.WellFormed) (hroots : ∀ r ∈ roots, r < doc.size)

include h hroots

theorem top_lt_size_of_mem {t : NodeId} (ht : t ∈ (roots.map doc.top).eraseDups) :
    t < doc.size := by
  obtain ⟨r, hr, rfl⟩ := List.mem_map.1 (List.mem_eraseDups.1 ht)
  exact h.top_lt_size (hroots r hr)

/-- The elements around some roots are those of their trees. -/
theorem mem_elementsAround_iff :
    n ∈ doc.elementsAround roots ↔ doc.isElement n = true ∧ ∃ r ∈ roots, doc.SameTree r n := by
  rw [elementsAround, List.mem_flatMap]
  constructor
  · rintro ⟨t, ht, hn⟩
    have htn := (h.mem_elementsUnder_iff (h.top_lt_size_of_mem hroots ht)).1 hn
    obtain ⟨r, hr, rfl⟩ := List.mem_map.1 (List.mem_eraseDups.1 ht)
    exact ⟨htn.2, r, hr, doc.top r, (h.top_spec r).1, htn.1⟩
  · rintro ⟨helement, r, hr, hsame⟩
    have ht := List.mem_eraseDups.2 (List.mem_map_of_mem (f := doc.top) hr)
    have hbelow : doc.Within (doc.top r) n := by
      rw [h.sameTree_iff.1 hsame]
      exact (h.top_spec n).1
    have hlt := h.top_lt_size_of_mem hroots ht
    exact ⟨doc.top r, ht, (h.mem_elementsUnder_iff hlt).2 ⟨hbelow, helement⟩⟩

/-- They are listed in document order, tree by tree. -/
theorem pairwise_elementsAround : (doc.elementsAround roots).Pairwise (doc.Before roots) := by
  refine List.pairwise_flatMap.2 ⟨fun t ht => ?_, ?_⟩
  · exact ((h.pairwise_preorder (h.top_lt_size_of_mem hroots ht)).filter _).imp .inside
  · -- of two trees the one whose first root is earlier comes first
    refine (pairwise_eraseDups (roots.map doc.top)).imp_of_mem ?_
    intro t u ht hu hsplit x hx y hy
    have htop : ∀ {t x : NodeId}, t ∈ (roots.map doc.top).eraseDups → x ∈ doc.elementsUnder t →
        doc.top x = t := by
      intro t x ht hx
      have hw := ((h.mem_elementsUnder_iff (h.top_lt_size_of_mem hroots ht)).1 hx).1
      obtain ⟨r, -, rfl⟩ := List.mem_map.1 (List.mem_eraseDups.1 ht)
      exact h.top_eq_iff.2 ⟨hw, (h.top_spec r).2⟩
    obtain ⟨earlier, later, hroots', hnot⟩ := hsplit
    obtain ⟨before, after, rfl, rfl, hafter⟩ := List.map_eq_append_iff.1 hroots'
    obtain ⟨r, rest, rfl, rfl, rfl⟩ := List.map_eq_cons_iff.1 hafter
    refine .across rfl (h.sameTree_iff.2 (htop ht hx).symm) fun s hs hsame => hnot ?_
    rw [← htop hu hy, ← h.sameTree_iff.1 hsame, ← List.map_singleton, ← List.map_append]
    exact List.mem_map_of_mem hs

theorem nodup_elementsAround : (doc.elementsAround roots).Nodup := by
  refine (h.pairwise_elementsAround hroots).imp fun {a b} hab heq => ?_
  subst heq
  exact h.before_asymm hab hab

end

end WellFormed

end MarkupPath.Tree.Document
