import MarkupPath.Proofs.Evaluation.Kinds
import MarkupPath.Proofs.Evaluation.Limit

/-!
# Unions are unions of sets

The paths of a union are evaluated one after the other, with one count of visits for all of them.
Each path has its own nodes and its own cost, whatever was evaluated before it, so the union as a
whole finds the nodes of all paths at the sum of their costs (`spends_evalPaths`). Putting nodes
into document order looks only at which nodes there are (`Setting.Sound.sorted_congr`). Hence the
order of the paths does not matter under any limit, and neither does their number without a limit
(`evaluate_union`).
-/

set_option autoImplicit false

namespace MarkupPath.Evaluation

open MarkupPath.Query MarkupPath.Tree Visiting

/-- Sorting gives the same list for the same nodes, in whatever order and however often they
come. -/
theorem Setting.Sound.sorted_congr {env : Setting} (h : env.Sound) {ids ids' : List NodeId}
    (hids : ids ⊆ env.order) (hsame : ∀ id, id ∈ ids' ↔ id ∈ ids) :
    env.sorted ids' = env.sorted ids := by
  rw [h.sorted_eq_filter fun id hid => hids ((hsame id).1 hid), h.sorted_eq_filter hids]
  exact List.filter_congr fun id _ => decide_eq_decide.2 (hsame id)

/-- Nodes in document order are sorted already. -/
theorem Setting.Sound.sorted_eq_self {env : Setting} (h : env.Sound) {ids : List NodeId}
    (hids : ids.Sublist env.order) : env.sorted ids = ids := by
  rw [h.sorted_eq_filter hids.subset, ← eq_filter_of_sublist h.nodup_order hids]

/-! ## Costs of unions -/

section Costs

variable {env : Setting} {starts : List Item} {ids : Path Expr → List NodeId}
  {cost : Path Expr → Nat} {paths : List (Path Expr)}

/-- Paths that are evaluated one after the other find all their nodes, at the sum of their costs. -/
theorem spends_evalPaths (h : ∀ p ∈ paths,
    Spends (fun limit => evalPath (env.under limit) p starts) (.ok (.nodes (ids p))) (cost p)) :
    Spends (fun limit => evalPaths (env.under limit) paths starts) (.ok (paths.flatMap ids))
      (paths.map cost).sum := by
  induction paths with
  | nil =>
    simp only [evalPaths]
    exact .pure []
  | cons p rest ih =>
    obtain ⟨hp, hrest⟩ := List.forall_mem_cons.1 h
    simp only [evalPaths]
    exact hp.bind ((ih hrest).map (ids p ++ ·))

end Costs

section

variable {doc : Document} {roots : List NodeId} {p : Path Expr} {paths : List (Path Expr)}

/-- The path selects these nodes from the roots after so many visits, whatever the limit. -/
def Selects (doc : Document) (roots : List NodeId) (p : Path Expr) (ids : List NodeId)
    (cost : Nat) : Prop :=
  Spends (fun limit => evalPath ((Setting.of doc roots none).under limit) p (roots.map Item.node))
    (.ok (.nodes ids)) cost

theorem exists_selects (hdoc : doc.WellFormed) (hroots : roots ≠ [])
    (hknown : ∀ r ∈ roots, r < doc.size) (hp : Parsed (.path p))
    (hnodes : p.endsInAttribute = false) :
    ∃ ids cost, Selects doc roots p ids cost ∧ evaluate doc roots (.path p) none = .ok ids ∧
      ids.Sublist (doc.elementsAround roots) := by
  obtain ⟨ids, hids⟩ := exists_nodes_of_parsed hdoc hroots hknown hp hnodes
  obtain ⟨first, hfirst⟩ := Option.isSome_iff_exists.1 (List.isSome_head?.2 hroots)
  obtain ⟨result, cost, hspends⟩ :=
    metered_evalPath (Setting.of doc roots none) p (roots.map Item.node)
  -- without a limit the result is the value of the path
  have hresult : result = .ok (.nodes ids) := by
    rw [← hids, evaluateValue_eq hfirst hknown]
    exact (hspends.run'_eq none).symm
  subst hresult
  exact ⟨ids, cost, hspends, evaluate_of_evaluateValue hids,
    sublist_elementsAround hdoc hroots hknown hp hids⟩

/-- Under every limit a union selects the nodes of its paths, in document order, at the sum of
their costs. -/
theorem evaluate_union_eq {ids : Path Expr → List NodeId} {cost : Path Expr → Nat}
    (hroots : roots ≠ []) (hknown : ∀ r ∈ roots, r < doc.size)
    (hpaths : ∀ p ∈ paths, Selects doc roots p (ids p) (cost p)) (limit : Option Nat) :
    evaluate doc roots (.union paths) limit = refuse limit (paths.map cost).sum
      (.ok ((Setting.of doc roots none).sorted (paths.flatMap ids))) := by
  obtain ⟨first, hfirst⟩ := Option.isSome_iff_exists.1 (List.isSome_head?.2 hroots)
  let env := Setting.of doc roots none
  have hunion : Spends (fun limit => evalFrom (env.under limit) first (.union paths))
      (.ok (.nodes (env.sorted (paths.flatMap ids)))) (paths.map cost).sum :=
    (spends_evalPaths hpaths).map fun found => Value.nodes (env.sorted found)
  have hvalue : evaluateValue doc roots (.union paths) limit = refuse limit (paths.map cost).sum
      (.ok (.nodes (env.sorted (paths.flatMap ids)))) := by
    rw [evaluateValue_eq hfirst hknown]
    exact hunion.run'_eq limit
  rw [evaluate, hvalue]
  cases limit with
  | none => rfl
  | some most =>
    rw [refuse, refuse]
    split <;> rfl

/-- A path that selects nodes selects what the union of it alone does. -/
theorem evaluate_path_eq_union (hdoc : doc.WellFormed) (hroots : roots ≠ [])
    (hknown : ∀ r ∈ roots, r < doc.size) (hp : Parsed (.path p))
    (hnodes : p.endsInAttribute = false) :
    evaluate doc roots (.path p) none = evaluate doc roots (.union [p]) none := by
  obtain ⟨ids, cost, hselects, hids, hsub⟩ := exists_selects hdoc hroots hknown hp hnodes
  have henv := Setting.Sound.of hdoc hknown none
  have hall : ∀ q ∈ [p], Selects doc roots q ids cost := by simpa using hselects
  have hunion := evaluate_union_eq hroots hknown hall none
  rw [hids, hunion, refuse, List.flatMap_singleton, henv.sorted_eq_self hsub]

end

/-- The nodes of a union are those that at least one of its paths selects, in one list for all
orders and repetitions of the same paths; a union of one path, however often, selects what the path
does. Under any limit on visits every order of the paths has the same outcome: those nodes, or the
limit is reached. -/
theorem evaluate_union {doc : Document} {roots : List NodeId} {paths : List (Path Expr)}
    (hdoc : Reachable doc) (hroots : roots ≠ []) (hknown : ∀ r ∈ roots, r < doc.size)
    (hne : paths ≠ []) (hpaths : ∀ p ∈ paths, Parsed (.path p) ∧ p.endsInAttribute = false) :
    ∃ ids, evaluate doc roots (.union paths) none = .ok ids ∧
      (∀ n, n ∈ ids ↔
        ∃ p ∈ paths, ∃ found, evaluate doc roots (.path p) none = .ok found ∧ n ∈ found) ∧
      (∀ paths', (∀ p, p ∈ paths' ↔ p ∈ paths) →
        evaluate doc roots (.union paths') none = .ok ids) ∧
      (∀ p, (∀ q ∈ paths, q = p) → evaluate doc roots (.path p) none = .ok ids) ∧
      ∀ paths' most, paths'.Perm paths →
        evaluate doc roots (.union paths') (some most) =
          evaluate doc roots (.union paths) (some most) ∧
        (evaluate doc roots (.union paths) (some most) = .ok ids ∨
          evaluate doc roots (.union paths) (some most) = .error (.limit most)) := by
  have hwf := hdoc.wellFormed
  have henv := Setting.Sound.of hwf hknown none
  -- every path has its own nodes and its own cost
  have hselects : ∀ p, p ∈ paths → ∃ ids cost, Selects doc roots p ids cost ∧
      evaluate doc roots (.path p) none = .ok ids ∧ ids.Sublist (doc.elementsAround roots) :=
    fun p hp => exists_selects hwf hroots hknown (hpaths p hp).1 (hpaths p hp).2
  choose! ids cost hselects hvalue hsub using hselects
  have hflat : paths.flatMap ids ⊆ (Setting.of doc roots none).order := by
    intro n hn
    obtain ⟨p, hp, hn⟩ := List.mem_flatMap.1 hn
    exact (hsub p hp).subset hn
  have hunion : ∀ paths', (∀ p, p ∈ paths' ↔ p ∈ paths) → ∀ limit,
      evaluate doc roots (.union paths') limit = refuse limit (paths'.map cost).sum
        (.ok ((Setting.of doc roots none).sorted (paths.flatMap ids))) := by
    intro paths' hsame limit
    rw [evaluate_union_eq hroots hknown (fun p hp => hselects p ((hsame p).1 hp)) limit,
      henv.sorted_congr hflat fun n => by simp only [List.mem_flatMap, hsame]]
  refine ⟨_, hunion paths (fun _ => Iff.rfl) none, fun n => ?_, fun paths' hsame =>
    hunion paths' hsame none, fun p hp => ?_, fun paths' most hperm => ⟨?_, ?_⟩⟩
  · rw [henv.mem_sorted_iff hflat, List.mem_flatMap]
    constructor
    · rintro ⟨p, hp, hn⟩
      exact ⟨p, hp, ids p, hvalue p hp, hn⟩
    · rintro ⟨p, hp, found, hfound, hn⟩
      cases (hvalue p hp).symm.trans hfound
      exact ⟨p, hp, hn⟩
  · -- all paths are the same one, so the union of it alone has the same members
    obtain ⟨q, hq⟩ := List.exists_mem_of_ne_nil paths hne
    cases hp q hq
    have hsame : ∀ r, r ∈ [p] ↔ r ∈ paths := by
      intro r
      rw [List.mem_singleton]
      exact ⟨fun hr => hr ▸ hq, hp r⟩
    rw [evaluate_path_eq_union hwf hroots hknown (hpaths p hq).1 (hpaths p hq).2]
    exact hunion [p] hsame none
  · rw [hunion paths' (fun p => hperm.mem_iff), hunion paths (fun p => Iff.rfl),
      (hperm.map cost).sum_eq]
  · rw [hunion paths (fun p => Iff.rfl), refuse]
    split
    · exact .inr rfl
    · exact .inl rfl

/-- From two nested roots a descendant and the children are found together, whichever path comes
first; three visits are too few in either order. -/
theorem evaluate_union_of_nest :
    let lower : Path Expr := ⟨true, [⟨.descendantOrSelf, .element (.name "c"), []⟩]⟩
    let children : Path Expr := ⟨false, [⟨.child, .any, []⟩]⟩
    evaluate nest [1, 0] (.union [lower, children]) none = .ok [1, 2] ∧
      evaluate nest [1, 0] (.union [children, lower, children]) none = .ok [1, 2] ∧
      evaluate nest [1, 0] (.union [lower, children]) (some 3) = .error (.limit 3) ∧
      evaluate nest [1, 0] (.union [children, lower]) (some 3) = .error (.limit 3) := by
  intro lower children
  have hreachable : Reachable nest := .edit _ (.edit _ (.withRoot (.named "a")))
  have hparsed : ∀ p ∈ [lower, children], Parsed (.path p) ∧ p.endsInAttribute = false := by
    simp [lower, children, Expr.Every, Expr.EveryPath, Expr.EverySteps, Expr.EveryStep,
      Expr.EveryList, Regular, Path.endsInAttribute, NodeTest.isAttribute]
  have hvalue : evaluate nest [1, 0] (.union [lower, children]) none = .ok [1, 2] := by cbv
  have hstop : evaluate nest [1, 0] (.union [lower, children]) (some 3) = .error (.limit 3) := by
    cbv
  obtain ⟨ids, hids, -, hsame, -, hperm⟩ := evaluate_union hreachable (List.cons_ne_nil 1 [0])
    (by decide +kernel) (List.cons_ne_nil lower [children]) hparsed
  cases hvalue.symm.trans hids
  refine ⟨hvalue, hsame _ fun p => ?_, hstop, ?_⟩
  · simp [or_comm]
  · exact (hperm _ 3 (.swap lower children [])).1.trans hstop

end MarkupPath.Evaluation
