import MarkupPath.Proofs.Tree.Order
import Mathlib.Data.Set.Function

/-!
# Renamed trees

`Renaming doc doc' roots f` says that the trees around some roots of one document and the trees
around the renamed roots of another one have the same shape and content: `f` maps the nodes of the
first trees one-to-one onto those of the second ones and keeps kinds, names, attributes, texts,
parents and the order of children. Nothing is asked of the identities or of any other node.

All walks follow a renaming: the roots of trees (`Renaming.top_map`), the subtrees
(`Renaming.preorder_map`) and the elements around the roots (`Renaming.elementsAround_map`). Trees
whose nodes are all unchanged are renamed by the identity (`Renaming.of_unchanged`).
-/

set_option autoImplicit false

namespace MarkupPath.Tree

open MarkupPath.Markup (Attribute)

namespace Document

/-- The node belongs to the tree of one of the roots. -/
def Around (doc : Document) (roots : List NodeId) (id : NodeId) : Prop :=
  ∃ r ∈ roots, doc.SameTree r id

variable {doc : Document} {roots : List NodeId} {a id p r : NodeId}

namespace WellFormed

theorem around_of_mem (h : doc.WellFormed) (hr : r ∈ roots) : doc.Around roots r :=
  ⟨r, hr, h.sameTree_iff.2 rfl⟩

theorem around_iff_of_within (h : doc.WellFormed) (hw : doc.Within a id) :
    doc.Around roots a ↔ doc.Around roots id := by
  simp only [Around, h.sameTree_iff, h.top_eq_of_within hw]

theorem around_parent_iff (h : doc.WellFormed) (hp : doc.parent? id = some p) :
    doc.Around roots p ↔ doc.Around roots id :=
  h.around_iff_of_within (Ancestor.parent hp).within

theorem lt_size_of_around (h : doc.WellFormed) (hknown : ∀ r ∈ roots, r < doc.size)
    (hid : doc.Around roots id) : id < doc.size := by
  obtain ⟨r, hr, hsame⟩ := hid
  have htop := h.top_lt_size (hknown r hr)
  rw [h.sameTree_iff.1 hsame] at htop
  rcases (h.top_spec id).1 with heq | ha
  · exact heq ▸ htop
  · exact ha.lt_size

end WellFormed

/-- A stack has only one traversal. -/
theorem Traversal.unique {stack first second : List NodeId} (hfirst : Traversal doc stack first)
    (hsecond : Traversal doc stack second) : first = second := by
  induction hfirst generalizing second with
  | nil =>
    cases hsecond
    rfl
  | cons _ ih =>
    cases hsecond with
    | cons hrest => rw [ih hrest]

end Document

/-- Dropping repetitions commutes with a map that keeps different members apart. -/
theorem eraseDups_map {f : NodeId → NodeId} (ids : List NodeId)
    (hinj : Set.InjOn f {id | id ∈ ids}) : (ids.map f).eraseDups = ids.eraseDups.map f := by
  -- on the length, since the tail is filtered before it is looked at
  induction hn : ids.length using Nat.strongRecOn generalizing ids with
  | ind n ih =>
    cases ids with
    | nil => rfl
    | cons x rest =>
      have htail : ((rest.map f).filter fun y => !y == f x) =
          (rest.filter fun y => !y == x).map f := by
        rw [List.filter_map]
        refine congrArg (List.map f) (List.filter_congr fun y hy => ?_)
        have hiff : f y = f x ↔ y = x :=
          hinj.eq_iff (List.mem_cons_of_mem _ hy) List.mem_cons_self
        by_cases hyx : y = x <;> simp [hiff, hyx]
      have hless := List.length_filter_le (fun y => !y == x) rest
      rw [List.map_cons, List.eraseDups_cons, List.eraseDups_cons, htail, List.map_cons,
        ih _ (by rw [← hn, List.length_cons]; omega) _ (hinj.mono fun y hy => ?_) rfl]
      exact List.mem_cons_of_mem _ (List.mem_of_mem_filter hy)

/-! ## Renamings -/

/-- The trees around the roots of the first document are, with their nodes renamed, the trees around
the renamed roots of the second one. -/
structure Renaming (doc doc' : Document) (roots : List NodeId) (f : NodeId → NodeId) : Prop where
  bijOn : Set.BijOn f {id | doc.Around roots id} {id | doc'.Around (roots.map f) id}
  kind?_eq : ∀ {id : NodeId}, doc.Around roots id → doc'.kind? (f id) = doc.kind? id
  name?_eq : ∀ {id : NodeId}, doc.Around roots id → doc'.name? (f id) = doc.name? id
  attributes_eq : ∀ {id : NodeId}, doc.Around roots id →
    doc'.attributes (f id) = doc.attributes id
  text?_eq : ∀ {id : NodeId}, doc.Around roots id → doc'.text? (f id) = doc.text? id
  parent?_eq : ∀ {id : NodeId}, doc.Around roots id →
    doc'.parent? (f id) = (doc.parent? id).map f
  children_eq : ∀ {id : NodeId}, doc.Around roots id →
    doc'.children (f id) = (doc.children id).map f

open Document

namespace Renaming

variable {doc doc' : Document} {roots : List NodeId} {f : NodeId → NodeId} {a id : NodeId}

theorem isElement_eq (ren : Renaming doc doc' roots f) (hid : doc.Around roots id) :
    doc'.isElement (f id) = doc.isElement id := by
  rw [isElement, isElement, ren.kind?_eq hid]

theorem ancestor_map (ren : Renaming doc doc' roots f) (h : doc.WellFormed)
    (hid : doc.Around roots id) (ha : doc.Ancestor a id) : doc'.Ancestor (f a) (f id) := by
  induction ha with
  | parent hp => exact .parent (by rw [ren.parent?_eq hid, hp, Option.map_some])
  | step hp _ ih =>
    exact .step (by rw [ren.parent?_eq hid, hp, Option.map_some])
      (ih ((h.around_parent_iff hp).2 hid))

theorem filter_isElement (ren : Renaming doc doc' roots f) {ids : List NodeId}
    (hids : ∀ id ∈ ids, doc.Around roots id) :
    (ids.map f).filter doc'.isElement = (ids.filter doc.isElement).map f := by
  rw [List.filter_map]
  exact congrArg (List.map f) (List.filter_congr fun id hid => ren.isElement_eq (hids id hid))

/-- Walks are renamed with the nodes. -/
theorem traversal_map (ren : Renaming doc doc' roots f) (h : doc.WellFormed)
    {stack ids : List NodeId} (hstack : ∀ id ∈ stack, doc.Around roots id)
    (ht : Traversal doc stack ids) : Traversal doc' (stack.map f) (ids.map f) := by
  induction ht with
  | nil => exact .nil
  | @cons id stack ids _ ih =>
    obtain ⟨hid, hrest⟩ := List.forall_mem_cons.1 hstack
    refine .cons ?_
    rw [ren.children_eq hid, ← List.map_append]
    refine ih (List.forall_mem_append.2 ⟨fun c hc => ?_, hrest⟩)
    exact (h.around_parent_iff (h.mem_children_iff.1 hc)).1 hid

section

variable (ren : Renaming doc doc' roots f) (h : doc.WellFormed) (h' : doc'.WellFormed)
  (hknown : ∀ r ∈ roots, r < doc.size)

include ren h hknown

theorem lt_size (hid : doc.Around roots id) : f id < doc'.size := by
  obtain ⟨n, hn⟩ := Option.isSome_iff_exists.1 (Option.isSome_iff_ne_none.2 fun hnone =>
    absurd (h.lt_size_of_around hknown hid) (Nat.not_lt.2 (doc.node?_eq_none_iff.1 hnone)))
  have hkind : doc'.kind? (f id) = some n.kind := by
    rw [ren.kind?_eq hid, kind?, hn, Option.map_some]
  obtain ⟨m, hm, -⟩ := Option.map_eq_some_iff.1 hkind
  exact lt_size_of_node? hm

include h'

omit hknown in
theorem top_map (hid : doc.Around roots id) : doc'.top (f id) = f (doc.top id) := by
  obtain ⟨hwithin, hroot⟩ := h.top_spec id
  refine h'.top_eq_iff.2 ⟨?_, ?_⟩
  · rcases hwithin with heq | ha
    · exact .inl (congrArg f heq)
    · exact .inr (ren.ancestor_map h hid ha)
  · rw [ren.parent?_eq ((h.around_iff_of_within hwithin).2 hid), hroot, Option.map_none]

theorem preorder_map (hid : doc.Around roots id) :
    doc'.preorder (f id) = (doc.preorder id).map f := by
  have ht := h.traversal_preorder (h.lt_size_of_around hknown hid)
  have hmap := ren.traversal_map h (by simpa using hid) ht
  exact (h'.traversal_preorder (ren.lt_size h hknown hid)).unique hmap

theorem elementsUnder_map (hid : doc.Around roots id) :
    doc'.elementsUnder (f id) = (doc.elementsUnder id).map f := by
  rw [elementsUnder, elementsUnder, ren.preorder_map h h' hknown hid]
  refine ren.filter_isElement fun n hn => ?_
  have hw := (h.mem_preorder_iff (h.lt_size_of_around hknown hid)).1 hn
  exact (h.around_iff_of_within hw).1 hid

/-- So are the elements around the roots, in their order. -/
theorem elementsAround_map :
    doc'.elementsAround (roots.map f) = (doc.elementsAround roots).map f := by
  have htop : ∀ {t : NodeId}, t ∈ roots.map doc.top → doc.Around roots t := by
    intro t ht
    obtain ⟨r, hr, rfl⟩ := List.mem_map.1 ht
    exact (h.around_iff_of_within (h.top_spec r).1).2 (h.around_of_mem hr)
  have htops : (roots.map f).map doc'.top = (roots.map doc.top).map f := by
    rw [List.map_map, List.map_map]
    exact List.map_congr_left fun r hr => ren.top_map h h' (h.around_of_mem hr)
  rw [elementsAround, elementsAround, htops,
    eraseDups_map _ (ren.bijOn.injOn.mono fun t ht => htop ht), List.flatMap_map,
    List.map_flatMap]
  exact List.flatMap_congr fun t ht =>
    ren.elementsUnder_map h h' hknown (htop (List.mem_eraseDups.1 ht))

end

end Renaming

/-! ## Unchanged trees -/

section Unchanged

variable {doc doc' : Document} {roots : List NodeId} {a n : NodeId}

/-- Every node around the roots is the same in the second document. -/
def Unchanged (doc doc' : Document) (roots : List NodeId) : Prop :=
  ∀ n, doc.Around roots n → doc'.node? n = doc.node? n

namespace Unchanged

theorem parent?_eq (hsame : Unchanged doc doc' roots) (hn : doc.Around roots n) :
    doc'.parent? n = doc.parent? n := by
  rw [parent?, parent?, hsame n hn]

/-- Above the nodes around the roots nothing changes. -/
theorem within_iff (hsame : Unchanged doc doc' roots) (h : doc.WellFormed)
    (hn : doc.Around roots n) : doc'.Within a n ↔ doc.Within a n := by
  constructor
  · rintro (rfl | ha)
    · exact .refl doc n
    · induction ha with
      | parent hp => exact .inr (.parent (hsame.parent?_eq hn ▸ hp))
      | step hp _ ih =>
        have hp' := hsame.parent?_eq hn ▸ hp
        exact (ih ((h.around_parent_iff hp').2 hn)).trans (Ancestor.parent hp').within
  · rintro (rfl | ha)
    · exact .refl doc' n
    · induction ha with
      | parent hp => exact .inr (.parent ((hsame.parent?_eq hn).trans hp))
      | step hp _ ih =>
        exact (ih ((h.around_parent_iff hp).2 hn)).trans
          (Ancestor.parent ((hsame.parent?_eq hn).trans hp)).within

/-- No node comes to stand below one of the unchanged nodes. -/
theorem around_of_within (hsame : Unchanged doc doc' roots) (h : doc.WellFormed)
    (h' : doc'.WellFormed) (ha : doc.Around roots a) (hw : doc'.Within a n) :
    doc.Around roots n := by
  have hchild : ∀ {p c : NodeId}, doc.Around roots p → doc'.parent? c = some p →
      doc.Around roots c := by
    intro p c hp hc
    -- the new parent lists the node among its children, which are the old ones
    have hmem := h'.mem_children_iff.2 hc
    rw [children, hsame p hp, ← children] at hmem
    exact (h.around_parent_iff (h.mem_children_iff.1 hmem)).1 hp
  rcases hw with rfl | hw
  · exact ha
  · induction hw with
    | parent hp => exact hchild ha hp
    | step hp _ ih => exact hchild ih hp

/-- An edit outside the trees of the roots leaves the same nodes around them. -/
theorem around_iff (hsame : Unchanged doc doc' roots) (h : doc.WellFormed)
    (h' : doc'.WellFormed) : doc'.Around roots n ↔ doc.Around roots n := by
  constructor
  · rintro ⟨r, hr, t, htr, htn⟩
    have ht := (hsame.within_iff h (h.around_of_mem hr)).1 htr
    have haround := (h.around_iff_of_within ht).2 (h.around_of_mem hr)
    exact hsame.around_of_within h h' haround htn
  · intro hn
    obtain ⟨r, hr, t, htr, htn⟩ := id hn
    exact ⟨r, hr, t, (hsame.within_iff h (h.around_of_mem hr)).2 htr,
      (hsame.within_iff h hn).2 htn⟩

end Unchanged

/-- Unchanged trees are renamed by the identity. -/
theorem Renaming.of_unchanged (hsame : Unchanged doc doc' roots) (h : doc.WellFormed)
    (h' : doc'.WellFormed) : Renaming doc doc' roots id where
  bijOn := by
    rw [List.map_id]
    have heq : {n | doc'.Around roots n} = {n | doc.Around roots n} :=
      Set.ext fun _ => hsame.around_iff h h'
    rw [heq]
    exact Set.bijOn_id _
  kind?_eq := fun hid => by rw [kind?, kind?, id_eq, hsame _ hid]
  name?_eq := fun hid => by rw [name?, name?, id_eq, hsame _ hid]
  attributes_eq := fun hid => by rw [attributes, attributes, id_eq, hsame _ hid]
  text?_eq := fun hid => by rw [text?, text?, id_eq, hsame _ hid]
  parent?_eq := fun hid => by rw [Option.map_id, id_eq, id_eq, hsame.parent?_eq hid]
  children_eq := fun hid => by rw [List.map_id, children, children, id_eq, hsame _ hid]

end Unchanged

end MarkupPath.Tree
