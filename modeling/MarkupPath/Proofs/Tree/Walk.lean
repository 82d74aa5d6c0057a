import MarkupPath.Proofs.Tree.WellFormed
import Mathlib.Data.List.Perm.Subperm
import Mathlib.Data.List.Nodup

/-!
# Walks in well-formed documents

Both walks of a document count their steps by its size, and in a well-formed document that is
always enough. Upward, `ancestors` lists exactly the nodes above a node, nearest first
(`WellFormed.mem_ancestors_iff`), and `top` is the root of its tree (`WellFormed.top_eq_iff`).
Downward, `preorder` lists exactly the nodes of a subtree (`WellFormed.mem_preorder_iff`), each once
(`WellFormed.nodup_preorder`), and obeys the recursion over the children without any count
(`WellFormed.preorder_eq`).

The upward walk cannot be cut short since it would then have met more nodes than there are. Its
length makes the induction from the children to their parent (`WellFormed.child_induction`) well
founded, and that induction gives the downward walk.
-/

set_option autoImplicit false

namespace MarkupPath.Tree.Document

/-- A list of different nodes of a document is no longer than the document. -/
theorem length_le_size_of_nodup (doc : Document) {ids : List NodeId} (hnodup : ids.Nodup)
    (hknown : ∀ id ∈ ids, id < doc.size) : ids.length ≤ doc.size := by
  have hsub : ids ⊆ List.range doc.size := fun id hid => List.mem_range.2 (hknown id hid)
  have hle := (List.subperm_of_subset hnodup hsub).length_le
  rwa [List.length_range] at hle

/-! ## Upward -/

section Upward

variable {doc : Document}

/-- Every node of an upward walk stands above its start. -/
theorem within_of_mem_ancestorsFrom {fuel : Nat} {a id : NodeId}
    (h : a ∈ doc.ancestorsFrom fuel (some id)) : doc.Within a id := by
  induction fuel generalizing id with
  | zero => cases h
  | succ fuel ih =>
    rcases List.mem_cons.1 h with rfl | hup
    · exact .refl doc a
    · cases hp : doc.parent? id with
      | none =>
        rw [hp] at hup
        cases fuel <;> cases hup
      | some p =>
        rw [hp] at hup
        exact (ih hup).trans (Ancestor.parent hp).within

/-- An upward walk uses up its count or meets every node above its start. -/
theorem length_ancestorsFrom_or_complete (doc : Document) (fuel : Nat) (id : NodeId) :
    (doc.ancestorsFrom fuel (some id)).length = fuel ∨
      ∀ a, doc.Within a id → a ∈ doc.ancestorsFrom fuel (some id) := by
  induction fuel generalizing id with
  | zero => exact .inl rfl
  | succ fuel ih =>
    cases hp : doc.parent? id with
    | none =>
      refine .inr fun a ha => ?_
      rw [ha.eq_of_root hp]
      exact List.mem_cons_self
    | some p =>
      rw [ancestorsFrom, hp]
      rcases ih p with hlength | hall
      · exact .inl (by rw [List.length_cons, hlength])
      · -- above the start is the parent and what is above it
        refine .inr fun a ha => ?_
        rcases ha with rfl | ha
        · exact List.mem_cons_self
        · obtain ⟨q, hq, haq⟩ := ancestor_iff_parent.1 ha
          rw [hp] at hq
          cases hq
          exact List.mem_cons_of_mem _ (hall a haq)

/-- Later nodes of an upward walk stand above the earlier ones. -/
theorem pairwise_ancestorsFrom (doc : Document) (fuel : Nat) (start : Option NodeId) :
    (doc.ancestorsFrom fuel start).Pairwise fun x y => doc.Ancestor y x := by
  induction fuel generalizing start with
  | zero => cases start <;> exact .nil
  | succ fuel ih =>
    cases start with
    | none => exact .nil
    | some id =>
      refine List.pairwise_cons.2 ⟨?_, ih _⟩
      intro y hy
      cases hp : doc.parent? id with
      | none =>
        rw [hp] at hy
        cases fuel <;> cases hy
      | some p =>
        rw [hp] at hy
        exact (within_of_mem_ancestorsFrom hy).trans_ancestor (.parent hp)

/-- The walk to the root meets nodes above alone. -/
theorem ancestor_of_mem_ancestors {a id : NodeId} (ha : a ∈ doc.ancestors id) :
    doc.Ancestor a id := by
  rw [ancestors] at ha
  cases hp : doc.parent? id with
  | none =>
    rw [hp] at ha
    cases hs : doc.size <;> (rw [hs] at ha; cases ha)
  | some p =>
    rw [hp] at ha
    exact (within_of_mem_ancestorsFrom ha).trans_ancestor (.parent hp)

namespace WellFormed

variable (h : doc.WellFormed)

include h

theorem nodup_ancestors (id : NodeId) : (doc.ancestors id).Nodup := by
  refine (pairwise_ancestorsFrom doc _ _).imp fun {x y} hyx hxy => ?_
  subst hxy
  exact h.acyclic x hyx

/-- A node has fewer nodes above it than the document has nodes. -/
theorem length_ancestors_lt {id : NodeId} (hid : id < doc.size) :
    (doc.ancestors id).length < doc.size := by
  have hnot : id ∉ doc.ancestors id := fun hmem => h.acyclic id (ancestor_of_mem_ancestors hmem)
  have hnodup : (id :: doc.ancestors id).Nodup := List.nodup_cons.2 ⟨hnot, h.nodup_ancestors id⟩
  -- the node itself is a further one
  apply doc.length_le_size_of_nodup hnodup
  intro a ha
  rcases List.mem_cons.1 ha with rfl | ha
  · exact hid
  · exact lt_size_of_isElement (h.isElement_of_ancestor (ancestor_of_mem_ancestors ha))

theorem mem_ancestors_iff {a id : NodeId} : a ∈ doc.ancestors id ↔ doc.Ancestor a id := by
  refine ⟨ancestor_of_mem_ancestors, fun ha => ?_⟩
  obtain ⟨p, hp, hap⟩ := ancestor_iff_parent.1 ha
  have hlt := h.length_ancestors_lt ha.lt_size
  rw [ancestors] at hlt ⊢
  rw [hp] at hlt ⊢
  -- a walk that used up its count would have met as many nodes as there are
  rcases length_ancestorsFrom_or_complete doc doc.size p with hlength | hall
  · exact absurd hlength (Nat.ne_of_lt hlt)
  · exact hall a hap

theorem isAncestor_iff {a id : NodeId} : doc.isAncestor a id = true ↔ doc.Ancestor a id := by
  rw [isAncestor, List.contains_iff_mem, h.mem_ancestors_iff]

/-- A child has at least one more node above it than its parent. -/
theorem length_ancestors_lt_of_parent {c p : NodeId} (hc : doc.parent? c = some p) :
    (doc.ancestors p).length < (doc.ancestors c).length := by
  have hnot : p ∉ doc.ancestors p := fun hmem => h.acyclic p (h.mem_ancestors_iff.1 hmem)
  have hsub : p :: doc.ancestors p ⊆ doc.ancestors c := by
    intro a ha
    rw [h.mem_ancestors_iff]
    rcases List.mem_cons.1 ha with rfl | ha
    · exact .parent hc
    · exact .step hc (h.mem_ancestors_iff.1 ha)
  exact (List.subperm_of_subset (List.nodup_cons.2 ⟨hnot, h.nodup_ancestors p⟩) hsub).length_le

/-- What holds of a node whenever it holds of its children holds of every node. -/
theorem child_induction {P : NodeId → Prop}
    (step : ∀ p, (∀ c, doc.parent? c = some p → P c) → P p) (id : NodeId) : P id := by
  -- on the number of nodes that are not above, which falls from a node to its children
  generalize hn : doc.size - (doc.ancestors id).length = n
  induction n using Nat.strongRecOn generalizing id with
  | ind n ih =>
    refine step id fun c hc => ih _ ?_ c rfl
    have hmore := h.length_ancestors_lt_of_parent hc
    have hless := h.length_ancestors_lt (lt_size_of_parent? hc)
    omega

/-- What holds of a node whenever it holds of its parent, if it has one, holds of every node. -/
theorem parent_induction {P : NodeId → Prop}
    (step : ∀ c, (∀ p, doc.parent? c = some p → P p) → P c) (id : NodeId) : P id := by
  generalize hn : (doc.ancestors id).length = n
  induction n using Nat.strongRecOn generalizing id with
  | ind n ih =>
    exact step id fun p hp => ih _ (hn ▸ h.length_ancestors_lt_of_parent hp) p rfl

/-! ## Roots of trees -/

/-- It ends at a node without a parent. -/
theorem top_spec (id : NodeId) : doc.Within (doc.top id) id ∧ doc.parent? (doc.top id) = none := by
  rw [top]
  cases hlast : (doc.ancestors id).getLast? with
  | none =>
    rw [List.getLast?_eq_none_iff] at hlast
    -- without a node above it the node is the root
    refine ⟨.refl doc id, ?_⟩
    rw [Option.getD_none, Option.eq_none_iff_forall_ne_some]
    intro p hp
    have hmem := h.mem_ancestors_iff.2 (Ancestor.parent hp)
    rw [hlast] at hmem
    cases hmem
  | some t =>
    obtain ⟨below, hbelow⟩ := List.getLast?_eq_some_iff.1 hlast
    have ht : t ∈ doc.ancestors id := hbelow ▸ List.mem_append_right _ List.mem_cons_self
    refine ⟨(h.mem_ancestors_iff.1 ht).within, ?_⟩
    rw [Option.getD_some, Option.eq_none_iff_forall_ne_some]
    intro p hp
    -- the parent would be on the walk as well, but nothing on it stands above its last node
    have hmem := h.mem_ancestors_iff.2 (.trans (.parent hp) (h.mem_ancestors_iff.1 ht))
    have hpairs := pairwise_ancestorsFrom doc doc.size (doc.parent? id)
    rw [ancestors] at hbelow
    rw [hbelow, List.pairwise_append] at hpairs
    rw [ancestors, hbelow, List.mem_append, List.mem_singleton] at hmem
    rcases hmem with hmem | rfl
    · exact h.acyclic t ((hpairs.2.2 p hmem t List.mem_cons_self).trans (.parent hp))
    · exact h.acyclic p (.parent hp)

/-- The root of a tree is told by being a root with the node in its subtree. -/
theorem top_eq_iff {t id : NodeId} :
    doc.top id = t ↔ doc.Within t id ∧ doc.parent? t = none := by
  obtain ⟨hwithin, hroot⟩ := h.top_spec id
  constructor
  · rintro rfl
    exact ⟨hwithin, hroot⟩
  · rintro ⟨ht, htroot⟩
    rcases within_total hwithin ht with hab | hba
    · exact (hab.eq_of_root htroot).symm
    · exact hba.eq_of_root hroot

theorem top_eq_of_within {a id : NodeId} (ha : doc.Within a id) : doc.top id = doc.top a := by
  obtain ⟨hwithin, hroot⟩ := h.top_spec a
  exact h.top_eq_iff.2 ⟨hwithin.trans ha, hroot⟩

theorem top_lt_size {id : NodeId} (hid : id < doc.size) : doc.top id < doc.size := by
  rcases (h.top_spec id).1 with heq | ha
  · exact heq ▸ hid
  · exact lt_size_of_isElement (h.isElement_of_ancestor ha)

end WellFormed

end Upward

/-! ## Downward -/

theorem mem_roots_iff {doc : Document} {id : NodeId} :
    id ∈ doc.roots ↔ id < doc.size ∧ doc.parent? id = none := by
  simp [roots]

/-- Visiting the subtrees of the first list one after the other gives the second list. -/
inductive Traversal (doc : Document) : List NodeId → List NodeId → Prop where
  | nil : Traversal doc [] []
  | cons {id : NodeId} {stack ids : List NodeId} :
      Traversal doc (doc.children id ++ stack) ids → Traversal doc (id :: stack) (id :: ids)

section Downward

variable {doc : Document}

theorem preorderFrom_eq_of_traversal {stack ids : List NodeId} (ht : Traversal doc stack ids)
    {fuel : Nat} (hfuel : ids.length ≤ fuel) : doc.preorderFrom fuel stack = ids := by
  induction ht generalizing fuel with
  | nil => cases fuel <;> rfl
  | cons _ ih =>
    obtain ⟨rest, rfl⟩ : ∃ rest, fuel = rest + 1 := ⟨fuel - 1, by simp at hfuel; omega⟩
    rw [preorderFrom, ih (by simpa using hfuel)]

/-- A walk meets no node twice, so at most as many as there are. -/
theorem length_preorder_le (id : NodeId) : (doc.preorder id).length ≤ doc.size := by
  have key : ∀ fuel stack, (doc.preorderFrom fuel stack).length ≤ fuel := by
    intro fuel
    induction fuel with
    | zero => intro stack; cases stack <;> exact Nat.le_refl 0
    | succ fuel ih =>
      intro stack
      cases stack with
      | nil => exact Nat.zero_le _
      | cons id stack => exact Nat.succ_le_succ (ih _)
  exact key doc.size [id]

theorem Traversal.append {first second firstIds secondIds : List NodeId}
    (hfirst : Traversal doc first firstIds) (hsecond : Traversal doc second secondIds) :
    Traversal doc (first ++ second) (firstIds ++ secondIds) := by
  induction hfirst with
  | nil => exact hsecond
  | cons _ ih =>
    rw [List.append_assoc] at ih
    exact .cons ih

namespace WellFormed

variable (h : doc.WellFormed)

include h

theorem mem_traversal_iff {stack ids : List NodeId} (ht : Traversal doc stack ids) {n : NodeId} :
    n ∈ ids ↔ ∃ id ∈ stack, doc.Within id n := by
  induction ht with
  | nil => simp
  | @cons id stack ids _ ih =>
    -- below the head of the stack stand the subtrees of its children, which take its place
    rw [List.mem_cons, ih, List.exists_mem_cons_iff, Within, ancestor_iff_child]
    simp only [List.mem_append, or_and_right, exists_or, h.mem_children_iff, or_assoc]

/-- Each subtree has a traversal, as no node is above itself. -/
theorem exists_traversal (id : NodeId) : ∃ ids, Traversal doc [id] ids := by
  induction id using h.child_induction with
  | step p ih =>
    -- the traversals of the children follow each other
    have key : ∀ cs : List NodeId, (∀ c ∈ cs, ∃ ids, Traversal doc [c] ids) →
        ∃ ids, Traversal doc cs ids := by
      intro cs
      induction cs with
      | nil => exact fun _ => ⟨[], .nil⟩
      | cons c cs ihcs =>
        intro hcs
        obtain ⟨first, hfirst⟩ := hcs c List.mem_cons_self
        obtain ⟨rest, hrest⟩ := ihcs fun d hd => hcs d (List.mem_cons_of_mem _ hd)
        exact ⟨first ++ rest, hfirst.append hrest⟩
    obtain ⟨ids, hids⟩ := key (doc.children p) fun c hc => ih c (h.mem_children_iff.1 hc)
    exact ⟨p :: ids, .cons (by rwa [List.append_nil])⟩

/-- Subtrees without a common node are visited without repetition. -/
theorem nodup_traversal {stack ids : List NodeId} (ht : Traversal doc stack ids)
    (hstack : stack.Pairwise fun a b => ∀ n, doc.Within a n → ¬ doc.Within b n) : ids.Nodup := by
  induction ht with
  | nil => exact List.nodup_nil
  | @cons id stack ids hrest ih =>
    obtain ⟨hid, hstack⟩ := List.pairwise_cons.1 hstack
    refine List.nodup_cons.2 ⟨?_, ih (List.pairwise_append.2 ⟨?_, hstack, ?_⟩)⟩
    · -- the head is not met again, below its children or below the rest of the stack
      intro hmem
      obtain ⟨x, hx, hw⟩ := (h.mem_traversal_iff hrest).1 hmem
      rcases List.mem_append.1 hx with hx | hx
      · have hup := Ancestor.parent (h.mem_children_iff.1 hx)
        exact h.acyclic id (hup.trans_within hw)
      · exact hid x hx id (.refl doc id) hw
    · -- the children are apart from each other
      refine (h.nodup_children id).imp_of_mem ?_
      intro a b ha hb hne n han hbn
      exact hne (h.eq_of_siblings (h.mem_children_iff.1 ha) (h.mem_children_iff.1 hb) han hbn)
    · -- and from the rest of the stack, as the head was
      intro c hc b hb n hcn
      have hup := Ancestor.parent (h.mem_children_iff.1 hc)
      exact hid b hb n (hup.within.trans hcn)

/-- The walk with its stack is the traversal of the subtree. -/
theorem traversal_preorder {id : NodeId} (hid : id < doc.size) :
    Traversal doc [id] (doc.preorder id) := by
  obtain ⟨ids, hids⟩ := h.exists_traversal id
  have hlength : ids.length ≤ doc.size := by
    refine doc.length_le_size_of_nodup (h.nodup_traversal hids (List.pairwise_singleton _ _)) ?_
    intro n hn
    obtain ⟨x, hx, hw⟩ := (h.mem_traversal_iff hids).1 hn
    cases List.mem_singleton.1 hx
    rcases hw with rfl | ha
    · exact hid
    · exact ha.lt_size
  rw [preorder, preorderFrom_eq_of_traversal hids hlength]
  exact hids

theorem mem_preorder_iff {id n : NodeId} (hid : id < doc.size) :
    n ∈ doc.preorder id ↔ doc.Within id n := by
  rw [h.mem_traversal_iff (h.traversal_preorder hid)]
  simp

theorem nodup_preorder {id : NodeId} (hid : id < doc.size) : (doc.preorder id).Nodup :=
  h.nodup_traversal (h.traversal_preorder hid) (List.pairwise_singleton _ _)

/-- The subtree of a node is the node and then the subtrees of its children. -/
theorem preorder_eq {id : NodeId} (hid : id < doc.size) :
    doc.preorder id = id :: (doc.children id).flatMap doc.preorder := by
  -- both sides are traversals of the node, so a count that is enough for both gives both
  have key : ∀ cs : List NodeId, (∀ c ∈ cs, c < doc.size) →
      Traversal doc cs (cs.flatMap doc.preorder) := by
    intro cs
    induction cs with
    | nil => exact fun _ => .nil
    | cons c cs ih =>
      intro hcs
      rw [List.flatMap_cons]
      exact (h.traversal_preorder (hcs c List.mem_cons_self)).append
        (ih fun d hd => hcs d (List.mem_cons_of_mem _ hd))
  have hchildren : Traversal doc [id] (id :: (doc.children id).flatMap doc.preorder) := by
    refine .cons ?_
    rw [List.append_nil]
    exact key _ fun c hc => h.child_lt_size hc
  have hlong := preorderFrom_eq_of_traversal hchildren (Nat.le_max_left _ (doc.preorder id).length)
  have hshort := preorderFrom_eq_of_traversal (h.traversal_preorder hid)
    (Nat.le_max_right (id :: (doc.children id).flatMap doc.preorder).length _)
  rw [← hlong, hshort]

/-! ## The whole forest -/

/-- The walks of the roots together meet every node exactly once. -/
theorem perm_flatMap_preorder : (doc.roots.flatMap doc.preorder).Perm (List.range doc.size) := by
  have hroot := @mem_roots_iff doc
  have hnodup : (doc.roots.flatMap doc.preorder).Nodup := by
    rw [List.nodup_flatMap]
    refine ⟨fun id hid => h.nodup_preorder (hroot.1 hid).1, ?_⟩
    -- two roots with a common node below them are both the root of its tree
    refine (List.nodup_range.filter _).imp_of_mem fun {a b} ha hb hne n hna hnb => ?_
    have hta := h.top_eq_iff.2 ⟨(h.mem_preorder_iff (hroot.1 ha).1).1 hna, (hroot.1 ha).2⟩
    have htb := h.top_eq_iff.2 ⟨(h.mem_preorder_iff (hroot.1 hb).1).1 hnb, (hroot.1 hb).2⟩
    exact hne (hta.symm.trans htb)
  rw [List.perm_ext_iff_of_nodup hnodup List.nodup_range]
  intro n
  rw [List.mem_flatMap, List.mem_range]
  constructor
  · rintro ⟨r, hr, hn⟩
    rcases (h.mem_preorder_iff (hroot.1 hr).1).1 hn with rfl | ha
    · exact (hroot.1 hr).1
    · exact ha.lt_size
  · intro hn
    obtain ⟨hwithin, htop⟩ := h.top_spec n
    have hlt := h.top_lt_size hn
    exact ⟨doc.top n, hroot.2 ⟨hlt, htop⟩, (h.mem_preorder_iff hlt).2 hwithin⟩

end WellFormed

end Downward

end MarkupPath.Tree.Document
