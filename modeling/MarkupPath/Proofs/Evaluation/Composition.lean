import MarkupPath.Proofs.Evaluation.Kinds
import MarkupPath.Proofs.Evaluation.Suborder

/-!
# Composed paths

The steps of two paths, one after the other, select what the second ones select from what the first
ones do (`evalSteps_append`). That second evaluation may as well take the nodes in between for its
roots: as long as those are elements in document order, the order around them is a part of the order
around the former roots (`order_sublist_of_members`), as `Matching.of_sublist` asks for. Only
absolute paths could tell the roots apart.
-/

set_option autoImplicit false

namespace MarkupPath.Evaluation

open MarkupPath.Query MarkupPath.Tree Visiting

/-! ## One path after another -/

/-- Steps that select nodes hand these on to the steps behind them. -/
theorem evalSteps_append {env : Setting} {first second : List (Step Expr)}
    (hfirst : ∀ s ∈ first, s.test.isAttribute = false) {items : List Item}
    (hitems : first = [] → ∃ ids : List NodeId, items = ids.map Item.node) :
    evalSteps env (first ++ second) items = (do
      let value ← evalSteps env first items
      evalSteps env second ((value.nodes?.getD []).map Item.node)) := by
  induction first generalizing items with
  | nil =>
    obtain ⟨ids, rfl⟩ := hitems rfl
    rw [List.nil_append, evalSteps, pure_bind, Value.nodes?, filterMap_node?]
    rfl
  | cons s rest ih =>
    obtain ⟨axis, test, predicates⟩ := s
    obtain ⟨hs, hrest⟩ := List.forall_mem_cons.1 hfirst
    have hnext : ∀ found : List NodeId, evalSteps env (rest ++ second) (found.map Item.node) = (do
        let value ← evalSteps env rest (found.map Item.node)
        evalSteps env second ((value.nodes?.getD []).map Item.node)) :=
      fun found => ih hrest fun _ => ⟨found, rfl⟩
    cases test with
    | element name =>
      rw [List.cons_append, evalSteps, evalSteps]
      simp only [hnext, bind_assoc]
    | any =>
      rw [List.cons_append, evalSteps, evalSteps]
      simp only [hnext, bind_assoc]
    | _ => cases hs

/-- From no items, steps select nothing. -/
theorem evalSteps_nil {env : Setting} {steps : List (Step Expr)}
    (hsteps : ∀ s ∈ steps, s.test.isAttribute = false) :
    evalSteps env steps [] = pure (.nodes []) := by
  induction steps with
  | nil => rw [evalSteps, List.filterMap_nil]
  | cons s rest ih =>
    obtain ⟨axis, test, predicates⟩ := s
    obtain ⟨hs, hrest⟩ := List.forall_mem_cons.1 hsteps
    have hstep : evalStep env ⟨axis, test, predicates⟩ [] = pure [] := by
      rw [evalStep, List.mapM_nil, pure_bind]
      rfl
    cases test with
    | element name =>
      rw [evalSteps, hstep, pure_bind]
      exact ih hrest
    | any =>
      rw [evalSteps, hstep, pure_bind]
      exact ih hrest
    | _ => cases hs

/-- A computation goes on where its first part has ended. -/
theorem run'_bind_of_run'_eq {α β : Type} {m : Visiting α} {f : α → Visiting β} {a : α} {k : Nat}
    (h : m.run' k = .ok a) : ∃ k', (m >>= f).run' k = (f a).run' k' := by
  simp only [StateT.run'] at h
  cases hm : m k with
  | error e =>
    rw [hm] at h
    cases h
  | ok result =>
    rw [hm] at h
    cases h
    refine ⟨result.2, ?_⟩
    simp only [Bind.bind, StateT.bind, StateT.run', hm, Except.bind]

/-! ## Members as roots -/

section Members

variable {doc : Document} {roots members : List NodeId} (hdoc : doc.WellFormed)
  (hknown : ∀ r ∈ roots, r < doc.size) (hmembers : members.Sublist (doc.elementsAround roots))

include hdoc hknown hmembers

theorem known_of_sublist : ∀ m ∈ members, m < doc.size := by
  intro m hm
  have helement := ((hdoc.mem_elementsAround_iff hknown).1 (hmembers.subset hm)).1
  exact Document.lt_size_of_isElement helement

/-- If one tree holds the first member of all that lie in two trees, then it comes first around the
former roots as well. -/
theorem before_of_members {a b : NodeId} (hb : ∃ m ∈ members, doc.SameTree m b)
    (hab : doc.Before members a b) : doc.Before roots a b := by
  have hpairs := (hdoc.pairwise_elementsAround hknown).sublist hmembers
  cases hab with
  | inside hprecedes => exact .inside hprecedes
  | @across earlier later r hsplit hr hnone =>
    obtain ⟨m, hm, hmb⟩ := hb
    have hlater : m ∈ later := by
      rw [hsplit, List.append_cons, List.mem_append] at hm
      exact hm.resolve_left fun hm => hnone m hm hmb
    -- the members come in document order, so `r` comes before `m`
    rw [hsplit, List.pairwise_append, List.pairwise_cons] at hpairs
    rw [hdoc.sameTree_iff] at hr hmb
    cases hpairs.2.1.1 m hlater with
    | inside hprecedes =>
      have hsame := hdoc.sameTree_iff.1 (hdoc.sameTree_of_precedes hprecedes)
      have hrb : doc.SameTree r b := hdoc.sameTree_iff.2 (hsame.trans hmb)
      exact absurd hrb (hnone r (List.mem_append_right _ List.mem_cons_self))
    | @across _ _ q hroots hq hfirst =>
      refine .across hroots (hdoc.sameTree_iff.2 ((hdoc.sameTree_iff.1 hq).trans hr)) ?_
      intro t ht htb
      refine hfirst t ht (hdoc.sameTree_iff.2 ?_)
      rw [hdoc.sameTree_iff.1 htb, hmb]

/-- The elements around the members are, in their order, some of those around the roots. -/
theorem order_sublist_of_members :
    (doc.elementsAround members).Sublist (doc.elementsAround roots) := by
  have hknown' := known_of_sublist hdoc hknown hmembers
  have : Std.Antisymm (doc.Before roots) := ⟨fun _ _ hab hba => absurd hba (hdoc.before_asymm hab)⟩
  have hpairs : (doc.elementsAround members).Pairwise (doc.Before roots) := by
    refine (hdoc.pairwise_elementsAround hknown').imp_of_mem fun {a b} _ hb hab => ?_
    have haround := ((hdoc.mem_elementsAround_iff hknown').1 hb).2
    exact before_of_members hdoc hknown hmembers haround hab
  have hsub : doc.elementsAround members ⊆ doc.elementsAround roots := by
    intro n hn
    obtain ⟨helement, m, hm, hmn⟩ := (hdoc.mem_elementsAround_iff hknown').1 hn
    obtain ⟨-, r, hr, hrm⟩ := (hdoc.mem_elementsAround_iff hknown).1 (hmembers.subset hm)
    refine (hdoc.mem_elementsAround_iff hknown).2 ⟨helement, r, hr, hdoc.sameTree_iff.2 ?_⟩
    rw [hdoc.sameTree_iff.1 hrm, hdoc.sameTree_iff.1 hmn]
  have hnodup := hdoc.nodup_elementsAround hknown'
  exact List.sublist_of_subperm_of_pairwise (List.subperm_of_subset hnodup hsub) hpairs
    (hdoc.pairwise_elementsAround hknown)

end Members

end MarkupPath.Evaluation
