import MarkupPath.Proofs.Evaluation.Order
import MarkupPath.Proofs.Evaluation.Visiting

/-!
# What axes reach

`Reached` tells by the parent relation where an axis leads, and `Candidate` adds that the node
passes the test of a step. An axis yields exactly the elements it reaches (`mem_navigate_iff`) and
yields them in document order, apart from the document, below which the roots may come in any order
(`navigate_sublist_order`). `candidates` sorts there if there is more than one root, so the
candidates of a step are always in document order (`gives_candidates`).
-/

set_option autoImplicit false

namespace MarkupPath.Evaluation

open MarkupPath.Query MarkupPath.Tree Visiting

/-- The axis leads from an item to a node. -/
def Reached (doc : Document) (roots : List NodeId) : Axis → Item → NodeId → Prop
  | .self, .node x, y => y = x
  | .self, .document, _ => False
  | .child, .node x, y => doc.parent? y = some x
  | .child, .document, y => y ∈ roots
  | .descendantOrSelf, .node x, y => doc.Within x y
  | .descendantOrSelf, .document, y => ∃ r ∈ roots, doc.Within r y
  | .parent, .node x, y => doc.parent? x = some y
  | .parent, .document, _ => False

/-- A step may lead from an item to a node, its predicates left aside. -/
def Candidate (doc : Document) (roots : List NodeId) (axis : Axis) (test : NodeTest) (x : Item)
    (y : NodeId) : Prop :=
  Reached doc roots axis x y ∧ passes doc test y = true

/-- The document, or a node of a tree around the roots. -/
def Item.Around (env : Setting) : Item → Prop
  | .document => True
  | .node id => env.Around id

variable {env : Setting} {axis : Axis} {test : NodeTest} {x : Item} {y : NodeId}

theorem isElement_of_passes {doc : Document} (h : passes doc test y = true) :
    doc.isElement y = true := by
  rw [passes] at h
  split at h
  · cases h
  · next n hn => exact doc.isElement_iff.2 ⟨n, hn, (Bool.and_eq_true_iff.1 h).1⟩

/-- An axis yields the elements that it reaches. -/
theorem mem_navigate_iff (h : env.Sound) (hx : x.Around env) :
    y ∈ navigate env.doc env.roots axis x ↔
      Reached env.doc env.roots axis x y ∧ env.doc.isElement y = true := by
  have hwf := h.wellFormed
  cases axis with
  | self => cases x <;> simp [navigate, Reached]
  | child => cases x <;> simp [navigate, Reached, hwf.mem_children_iff]
  | parent => cases x <;> simp [navigate, Reached]
  | descendantOrSelf =>
    cases x with
    | node id => exact hwf.mem_elementsUnder_iff (h.lt_size_of_around hx)
    | document =>
      simp only [navigate, Reached, List.mem_flatMap]
      constructor
      · rintro ⟨r, hr, hy⟩
        have hunder := (hwf.mem_elementsUnder_iff (h.known r hr)).1 hy
        exact ⟨⟨r, hr, hunder.1⟩, hunder.2⟩
      · rintro ⟨⟨r, hr, hw⟩, helement⟩
        exact ⟨r, hr, (hwf.mem_elementsUnder_iff (h.known r hr)).2 ⟨hw, helement⟩⟩

/-- Below a node an axis does not ask for the roots. -/
theorem navigate_node (doc : Document) (roots roots' : List NodeId) (axis : Axis) (n : NodeId) :
    navigate doc roots axis (.node n) = navigate doc roots' axis (.node n) := by
  cases axis <;> rfl

/-- No axis leaves the trees around the roots. -/
theorem around_of_reached (h : env.Sound) (hx : x.Around env)
    (hy : Reached env.doc env.roots axis x y) : env.Around y := by
  cases x with
  | document =>
    cases axis with
    | self => exact hy.elim
    | parent => exact hy.elim
    | child => exact h.around_of_mem hy
    | descendantOrSelf =>
      obtain ⟨r, hr, hw⟩ := hy
      exact (h.around_of_within hw).1 (h.around_of_mem hr)
  | node id =>
    cases axis with
    | self =>
      cases hy
      exact hx
    | child => exact (h.around_of_within (Document.Ancestor.parent hy).within).1 hx
    | descendantOrSelf => exact (h.around_of_within hy).1 hx
    | parent => exact (h.around_of_within (Document.Ancestor.parent hy).within).2 hx

theorem navigate_subset_order (h : env.Sound) (hx : x.Around env) :
    navigate env.doc env.roots axis x ⊆ env.order := by
  intro y hy
  obtain ⟨hreached, helement⟩ := (mem_navigate_iff h hx).1 hy
  exact h.mem_order_iff.2 ⟨helement, around_of_reached h hx hreached⟩

/-- From a node, and from the document above one root, an axis yields document order. -/
theorem navigate_sublist_order (h : env.Sound) (hx : x.Around env)
    (hsingle : x = .document → env.roots.length ≤ 1) :
    (navigate env.doc env.roots axis x).Sublist env.order := by
  have hwf := h.wellFormed
  -- a node is the head of its own walk, which is a part of the order
  have hone : ∀ {id : NodeId}, env.Around id →
      ([id].filter env.doc.isElement).Sublist env.order := by
    intro id hid
    have hhead : [id].Sublist (env.doc.preorder id) := by
      rw [hwf.preorder_eq (h.lt_size_of_around hid)]
      exact List.Sublist.cons_cons id (List.nil_sublist _)
    exact (hhead.filter _).trans (h.elementsUnder_sublist_order hid)
  cases x with
  | node id =>
    cases axis with
    | self => exact hone hx
    | child =>
      have hchildren := hwf.children_sublist_preorder (h.lt_size_of_around hx)
      exact (hchildren.filter _).trans (h.elementsUnder_sublist_order hx)
    | descendantOrSelf => exact h.elementsUnder_sublist_order hx
    | parent =>
      cases hp : env.doc.parent? id with
      | none =>
        rw [navigate, hp]
        exact List.nil_sublist _
      | some p =>
        rw [navigate, hp]
        exact hone ((h.around_of_within (Document.Ancestor.parent hp).within).2 hx)
  | document =>
    have hroots : env.roots = [] ∨ ∃ r, env.roots = [r] := by
      have hlength := hsingle rfl
      match hroots : env.roots with
      | [] => exact .inl rfl
      | [r] => exact .inr ⟨r, rfl⟩
      | _ :: _ :: _ => simp [hroots] at hlength
    cases axis with
    | self => exact List.nil_sublist _
    | parent => exact List.nil_sublist _
    | child =>
      rcases hroots with hnone | ⟨r, hr⟩
      · rw [navigate, hnone]
        exact List.nil_sublist _
      · rw [navigate, hr]
        exact hone (h.around_of_mem (hr ▸ List.mem_cons_self))
    | descendantOrSelf =>
      rcases hroots with hnone | ⟨r, hr⟩
      · rw [navigate, hnone]
        exact List.nil_sublist _
      · rw [navigate, hr, List.flatMap_singleton]
        exact h.elementsUnder_sublist_order (h.around_of_mem (hr ▸ List.mem_cons_self))

/-- The candidates of a step come in document order, each once. -/
theorem gives_candidates (h : env.Sound) {fault : EvaluationError → Prop}
    (hlimit : ∀ most, env.limit = some most → fault (.limit most)) (hx : x.Around env) :
    Gives fault (candidates env axis test x) fun found =>
      found.Sublist env.order ∧ ∀ y, y ∈ found ↔ Candidate env.doc env.roots axis test x y := by
  rw [candidates]
  refine (gives_visit hlimit _).bind fun _ _ => .pure ?_
  have hmem : ∀ y, y ∈ (navigate env.doc env.roots axis x).filter (passes env.doc test) ↔
      Candidate env.doc env.roots axis test x y := by
    intro y
    rw [List.mem_filter, mem_navigate_iff h hx]
    exact ⟨fun hy => ⟨hy.1.1, hy.2⟩, fun hy => ⟨⟨hy.1, isElement_of_passes hy.2⟩, hy.2⟩⟩
  have hsub : (navigate env.doc env.roots axis x).filter (passes env.doc test) ⊆ env.order :=
    fun y hy => navigate_subset_order h hx (List.mem_of_mem_filter hy)
  split
  · exact ⟨h.sorted_sublist_order hsub, fun y => (h.mem_sorted_iff hsub).trans (hmem y)⟩
  · -- without sorting there is at most one root, or the item is a node
    next hfew =>
    refine ⟨List.filter_sublist.trans (navigate_sublist_order h hx fun hdocument => ?_), hmem⟩
    simpa [hdocument] using hfew

end MarkupPath.Evaluation
