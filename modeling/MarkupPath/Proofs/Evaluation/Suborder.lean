import MarkupPath.Proofs.Evaluation.Matching
import MarkupPath.Proofs.Tree.Renaming

/-!
# Settings with a part of the order

Sorting compares the places of nodes in the order of the setting. If one order is a part of another
one, then both compare nodes alike that stand in both or in neither (`idxOf_le_idxOf_iff`), and they
sort them alike (`inOrder_of_sublist`), nodes without a place included. So a setting answers as
another one with more trees does, for all nodes around its own roots (`Matching.of_sublist`), and a
relative path gives the same from the same starts (`run'_evalPath_of_sublist`).
-/

set_option autoImplicit false

namespace MarkupPath.Evaluation

open MarkupPath.Query MarkupPath.Tree Visiting

/-! ## Sorting by a part of the order -/

section Sorting

variable {order order' ids : List NodeId}

/-- A part of the order has its members in the same order, and behind them what is in neither. -/
theorem idxOf_le_idxOf_iff (hsub : order'.Sublist order) (hnodup : order.Nodup) {a b : NodeId}
    (ha : a ∈ order → a ∈ order') (hb : b ∈ order → b ∈ order') :
    order'.idxOf a ≤ order'.idxOf b ↔ order.idxOf a ≤ order.idxOf b := by
  induction hsub with
  | slnil => exact Iff.rfl
  | @cons order' rest x hsub ih =>
    obtain ⟨hx, hrest⟩ := List.nodup_cons.1 hnodup
    -- a node that the part leaves out is neither of the two
    have hne : ∀ {y : NodeId}, (y ∈ x :: rest → y ∈ order') → x ≠ y := by
      rintro y hy rfl
      exact hx (hsub.subset (hy List.mem_cons_self))
    rw [List.idxOf_cons_ne _ (hne ha), List.idxOf_cons_ne _ (hne hb), Nat.succ_le_succ_iff]
    exact ih hrest (fun h => ha (List.mem_cons_of_mem _ h)) fun h => hb (List.mem_cons_of_mem _ h)
  | @cons_cons order' rest x hsub ih =>
    obtain ⟨-, hrest⟩ := List.nodup_cons.1 hnodup
    -- a node other than the common head is in both tails or in neither
    have htail : ∀ {y : NodeId}, x ≠ y → (y ∈ x :: rest → y ∈ x :: order') →
        y ∈ rest → y ∈ order' := fun hne hy h =>
      (List.mem_cons.1 (hy (List.mem_cons_of_mem _ h))).resolve_left hne.symm
    by_cases hxa : x = a
    · simp [hxa]
    · by_cases hxb : x = b
      · simp [hxb, hxb ▸ hxa]
      · rw [List.idxOf_cons_ne _ hxa, List.idxOf_cons_ne _ hxb, List.idxOf_cons_ne _ hxa,
          List.idxOf_cons_ne _ hxb, Nat.succ_le_succ_iff, Nat.succ_le_succ_iff]
        exact ih hrest (htail hxa ha) (htail hxb hb)

/-- Nodes that no order but its part has a place for are sorted alike by both. -/
theorem inOrder_of_sublist (hsub : order'.Sublist order) (hnodup : order.Nodup)
    (hids : ∀ id ∈ ids, id ∈ order → id ∈ order') : inOrder order' ids = inOrder order ids := by
  unfold inOrder
  extract_lets ranked' ranked
  let rerank : Nat × NodeId → Nat × NodeId := fun entry => (order'.idxOf entry.2, entry.2)
  have hranked : ranked' = ranked.map rerank := by
    simp only [ranked', ranked, List.map_map]
    rfl
  have hrank : ∀ entry ∈ ranked, entry.2 ∈ ids ∧ entry.1 = order.idxOf entry.2 := by
    intro entry hentry
    obtain ⟨id, hid, rfl⟩ := List.mem_map.1 hentry
    exact ⟨hid, rfl⟩
  -- to rank by the part changes no comparison
  have hsorted : ranked'.mergeSort (fun a b => a.1 ≤ b.1) =
      (ranked.mergeSort fun a b => a.1 ≤ b.1).map rerank := by
    rw [hranked]
    refine (List.map_mergeSort fun a ha b hb => decide_eq_decide.2 ?_).symm
    obtain ⟨hida, harank⟩ := hrank a ha
    obtain ⟨hidb, hbrank⟩ := hrank b hb
    rw [harank, hbrank]
    exact (idxOf_le_idxOf_iff hsub hnodup (hids _ hida) (hids _ hidb)).symm
  rw [hsorted, List.map_map]
  rfl

end Sorting

/-! ## Settings -/

section Settings

variable {doc : Document} {roots roots' : List NodeId} (hdoc : doc.WellFormed)
  (hknown : ∀ r ∈ roots, r < doc.size) (hknown' : ∀ r ∈ roots', r < doc.size)
  (hsub : (doc.elementsAround roots').Sublist (doc.elementsAround roots))

include hdoc hknown hknown' hsub

/-- Around the roots whose order is a part of the other one both settings answer alike. -/
theorem Matching.of_sublist : Matching (fun _ _ => True) id (doc.Around roots')
    (Setting.of doc roots none) (Setting.of doc roots' none) := by
  have henv' := Setting.Sound.of hdoc hknown' none
  refine .of_sorted_eq (fun {axis n y} hn hy => ?_) fun {ids} hids => ?_
  · have hx : (Item.node n).Around (Setting.of doc roots' none) := hn
    rw [navigate_node doc roots roots' axis n] at hy
    exact around_of_reached henv' hx ((mem_navigate_iff henv' hx).1 hy).1
  · refine inOrder_of_sublist hsub (hdoc.nodup_elementsAround hknown) fun id hid hmem => ?_
    have helement := ((hdoc.mem_elementsAround_iff hknown).1 hmem).1
    exact (hdoc.mem_elementsAround_iff hknown').2 ⟨helement, hids id hid⟩

/-- A path that is relative throughout gives the same in both settings. -/
theorem run'_evalPath_of_sublist {p : Path Expr}
    (hrelative : Expr.EveryPath (fun q => q.absolute = false) (fun _ _ => True) p)
    {ids : List NodeId} (hids : ∀ id ∈ ids, doc.Around roots' id) (k k' : Nat) :
    (evalPath (Setting.of doc roots' none) p (ids.map Item.node)).run' k' =
      (evalPath (Setting.of doc roots none) p (ids.map Item.node)).run' k := by
  have hmatch := Matching.of_sublist hdoc hknown hknown' hsub
  have hrun := (hmatch.mirrors_evalPath (fun q hq habsolute => by simp [hq] at habsolute) p
    hrelative (near_of_mem_map hids)).run'_eq k k' trivial
  rwa [Item.map_node_rename, List.map_id, Value.map_rename_id] at hrun

end Settings

end MarkupPath.Evaluation
