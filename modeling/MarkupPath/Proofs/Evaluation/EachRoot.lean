import MarkupPath.Proofs.Evaluation.Kinds
import MarkupPath.Proofs.Evaluation.Suborder

/-!
# Each root on its own

A relative path follows its chains from each root on its own (`exists_ends`), and what it finds from
one root does not depend on the other ones (`exists_ends_of_root`), since the order around one root
is a part of the order around all of them. Hence the nodes that it selects are those that it selects
from the single roots, merged (`merges_of_relative`): counts and positions are never shared between
roots, however their subtrees overlap.
-/

set_option autoImplicit false

namespace MarkupPath.Evaluation

open MarkupPath.Query MarkupPath.Tree Visiting

/-- Something is found from each of the roots, and the list has what is found from at least one of
them, in document order and each node once. -/
structure Merges {ε : Type} (doc : Document) (roots : List NodeId)
    (found : NodeId → Except ε (List NodeId)) (ids : List NodeId) : Prop where
  succeeds : ∀ r ∈ roots, ∃ part, found r = .ok part
  mem_iff : ∀ n, n ∈ ids ↔ ∃ r ∈ roots, ∃ part, found r = .ok part ∧ n ∈ part
  ordered : ids.Pairwise (doc.Before roots)
  nodup : ids.Nodup

/-- How failures are told does not matter, as there is none. -/
theorem Merges.mapError {ε ε' : Type} {doc : Document} {roots ids : List NodeId}
    {found : NodeId → Except ε (List NodeId)} {found' : NodeId → Except ε' (List NodeId)}
    {f : ε → ε'} (h : Merges doc roots found ids)
    (hfound : ∀ r ∈ roots, found' r = (found r).mapError f) : Merges doc roots found' ids where
  succeeds := by
    intro r hr
    obtain ⟨part, hpart⟩ := h.succeeds r hr
    exact ⟨part, by rw [hfound r hr, hpart]; rfl⟩
  mem_iff := by
    intro n
    rw [h.mem_iff]
    refine exists_congr fun r => and_congr_right fun hr => exists_congr fun part => ?_
    obtain ⟨part', hpart'⟩ := h.succeeds r hr
    rw [hfound r hr, hpart', Except.mapError, Except.ok.injEq, Except.ok.injEq]
  ordered := h.ordered
  nodup := h.nodup

section

variable {doc : Document} {roots : List NodeId} {p : Path Expr} (hdoc : doc.WellFormed)
  (hknown : ∀ r ∈ roots, r < doc.size) (hp : Parsed (.path p))
  (hnodes : p.endsInAttribute = false)
  (hrelative : (Expr.path p).Every (fun q => q.absolute = false) fun _ _ => True)

include hdoc hknown hp hnodes hrelative

/-- From nodes around the roots, a relative path finds the ends of the chains that begin there. -/
theorem exists_ends {starts : List NodeId} (hstarts : ∀ s ∈ starts, doc.Around roots s) :
    ∃ ids, (evalPath (Setting.of doc roots none) p (starts.map Item.node)).run' 0 =
        .ok (.nodes ids) ∧
      ∀ n, n ∈ ids ↔ ∃ s ∈ starts, Chain doc roots p.steps (.node s) n := by
  have henv := Setting.Sound.of hdoc hknown none
  rw [Parsed, Expr.Every] at hp
  rw [Expr.Every, Expr.EveryPath] at hrelative
  have haround : ∀ x ∈ starts.map Item.node, x.Around (Setting.of doc roots none) := by
    intro x hx
    obtain ⟨s, hs, rfl⟩ := List.mem_map.1 hx
    exact hstarts s hs
  have hends := gives_ends_of_chains (expected_never henv rfl) hp hnodes haround 0
  cases hrun : (evalPath (Setting.of doc roots none) p (starts.map Item.node)).run' 0 with
  | error fault =>
    rw [hrun] at hends
    exact hends.elim
  | ok value =>
    rw [hrun] at hends
    obtain ⟨ids, rfl, hmem⟩ := hends
    refine ⟨ids, rfl, fun n => (hmem n).trans ?_⟩
    rw [hrelative.1, if_neg Bool.false_ne_true]
    simp only [List.mem_map, exists_exists_and_eq_and]
    exact Iff.rfl

/-- With one of the roots left as the only one, the path finds the ends of the same chains. -/
theorem exists_ends_of_root {r : NodeId} (hr : r ∈ roots) :
    ∃ part, evaluate doc [r] (.path p) none = .ok part ∧
      ∀ n, n ∈ part ↔ Chain doc roots p.steps (.node r) n := by
  have hknown' : ∀ s ∈ [r], s < doc.size := by simpa using hknown r hr
  have henv := Setting.Sound.of hdoc hknown none
  -- around one root there is one tree, which is also one of those around all roots
  have hsub : (doc.elementsAround [r]).Sublist (doc.elementsAround roots) := by
    have htop : doc.elementsAround [r] = doc.elementsUnder (doc.top r) := by
      rw [Document.elementsAround, List.map_singleton, List.eraseDups_cons, List.filter_nil,
        List.eraseDups_nil, List.flatMap_singleton]
    have haround := (henv.around_of_within (hdoc.top_spec r).1).2 (henv.around_of_mem hr)
    rw [htop]
    exact henv.elementsUnder_sublist_order haround
  have hstart : ∀ s ∈ [r], doc.Around roots s := by simpa using hdoc.around_of_mem hr
  obtain ⟨part, hpart, hmem⟩ := exists_ends hdoc hknown hp hnodes hrelative hstart
  rw [Expr.Every] at hrelative
  have hrun := run'_evalPath_of_sublist hdoc hknown hknown' hsub hrelative
    (fun m hm => hdoc.around_of_mem hm) 0 0
  refine ⟨part, evaluate_of_evaluateValue ?_, fun n => by simpa using hmem n⟩
  rw [evaluateValue_eq rfl hknown', evalFrom]
  exact hrun.trans hpart

/-- A relative path selects what it selects from the single roots. -/
theorem merges_of_relative (hroots : roots ≠ []) :
    ∃ ids, evaluate doc roots (.path p) none = .ok ids ∧
      Merges doc roots (fun r => evaluate doc [r] (.path p) none) ids := by
  obtain ⟨first, hfirst⟩ := Option.isSome_iff_exists.1 (List.isSome_head?.2 hroots)
  obtain ⟨ids, hids, hmem⟩ := exists_ends hdoc hknown hp hnodes hrelative
    fun r hr => hdoc.around_of_mem hr
  have hvalue : evaluateValue doc roots (.path p) none = .ok (.nodes ids) := by
    rw [evaluateValue_eq hfirst hknown, evalFrom]
    exact hids
  have hsub := sublist_elementsAround hdoc hroots hknown hp hvalue
  have hpart := fun r (hr : r ∈ roots) => exists_ends_of_root hdoc hknown hp hnodes hrelative hr
  refine ⟨ids, evaluate_of_evaluateValue hvalue, fun r hr => ?_, fun n => ?_, ?_, ?_⟩
  · obtain ⟨part, hok, -⟩ := hpart r hr
    exact ⟨part, hok⟩
  · -- the chains that begin at a root end at what is found from this root alone
    rw [hmem]
    refine exists_congr fun r => and_congr_right fun hr => ?_
    obtain ⟨part, hok, hends⟩ := hpart r hr
    rw [← hends, hok]
    simp
  · exact (hdoc.pairwise_elementsAround hknown).sublist hsub
  · exact (hdoc.nodup_elementsAround hknown).sublist hsub

end

end MarkupPath.Evaluation
