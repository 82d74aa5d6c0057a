import MarkupPath.Proofs.Evaluation.Composition
import MarkupPath.Selection.ResultSet

/-!
# Narrowing is composition of paths

To search from the members of a result set is to evaluate a longer path from the original roots: the
steps that selected the members, then those of the path searched for (`find_eq_composition`). The
second path may not be absolute anywhere, since an absolute path would start above the members in
the one evaluation and above the original roots in the other.
-/

set_option autoImplicit false

namespace MarkupPath.Selection

open MarkupPath.Evaluation MarkupPath.Query MarkupPath.Tree Visiting

/-! ## Composed paths -/

/-- The steps of the first path, then those of the second one. -/
def composition (p q : Path Expr) : Path Expr := ⟨p.absolute, p.steps ++ q.steps⟩

/-! ## Evaluation in two parts -/

section

variable {doc : Document} {roots ids : List NodeId} {p q : Path Expr}

/-- The steps of the second path start from what the first path has selected. -/
theorem exists_evaluateValue_composition (hroots : roots ≠ [])
    (hknown : ∀ r ∈ roots, r < doc.size) (hp : Parsed (.path p))
    (hnodes : p.endsInAttribute = false)
    (hids : evaluateValue doc roots (.path p) none = .ok (.nodes ids)) :
    ∃ k, evaluateValue doc roots (.path (composition p q)) none =
      (evalSteps (Setting.of doc roots none) q.steps (ids.map Item.node)).run' k := by
  obtain ⟨absolute, steps⟩ := p
  obtain ⟨first, hfirst⟩ := Option.isSome_iff_exists.1 (List.isSome_head?.2 hroots)
  have hregular : Regular ⟨absolute, steps⟩ := (parsed_path_iff.1 hp).1
  rw [evaluateValue_eq hfirst hknown] at hids ⊢
  rw [evalFrom, evalPath] at hids
  rw [composition, evalFrom, evalPath, evalSteps_append (hregular.isAttribute_eq_false hnodes)
    fun hnil => absurd hnil hregular.1]
  exact run'_bind_of_run'_eq hids

/-- Over the members as roots the second path selects the same. -/
theorem evalSteps_eq_evaluateValue (hdoc : doc.WellFormed) (hknown : ∀ r ∈ roots, r < doc.size)
    (hids : ids.Sublist (doc.elementsAround roots)) (hne : ids ≠ [])
    (hrelative : (Expr.path q).Every (fun r => r.absolute = false) fun _ _ => True) (k : Nat) :
    (evalSteps (Setting.of doc roots none) q.steps (ids.map Item.node)).run' k =
      evaluateValue doc ids (.path q) none := by
  obtain ⟨absolute, steps⟩ := q
  obtain ⟨first, hfirst⟩ := Option.isSome_iff_exists.1 (List.isSome_head?.2 hne)
  have hknown' := known_of_sublist hdoc hknown hids
  rw [Expr.Every] at hrelative
  have hfalse : absolute = false := by
    rw [Expr.EveryPath] at hrelative
    exact hrelative.1
  have hrun := run'_evalPath_of_sublist hdoc hknown hknown'
    (order_sublist_of_members hdoc hknown hids) hrelative (fun m hm => hdoc.around_of_mem hm) k 0
  rw [hfalse, evalPath, evalPath] at hrun
  rw [evaluateValue_eq hfirst hknown', evalFrom, hfalse, evalPath]
  exact hrun.symm

end

/-! ## Result sets -/

theorem parsed_of_compile {source : String} {b : Expression}
    (h : ResultSet.compile source = .ok b) : Parsed b.tree := by
  rw [ResultSet.compile] at h
  cases hcompile : Expression.compile defaultDepth source with
  | error fault =>
    rw [hcompile] at h
    cases h
  | ok e =>
    rw [hcompile] at h
    cases h
    obtain ⟨tree, htree, he⟩ := exists_of_bind_eq_ok hcompile
    cases he
    obtain ⟨tokens, -, hparse⟩ := exists_of_bind_eq_ok htree
    exact every_of_ofTokens hparse

/-- What a path finds from the members of a result set that another path has selected is what the
composition of both paths selects from the original roots. Neither evaluation fails, and from no
members nothing is found. -/
theorem find_eq_composition {doc : Document} {roots : List NodeId} (hdoc : Reachable doc)
    (hroots : roots ≠ []) (hknown : ∀ r ∈ roots, r < doc.size) {a b : Expression}
    {p q : Path Expr} {limit : Nat} {tokens : List Token} {source : String}
    (ha : Expr.ofTokens limit tokens = .ok a.tree) (hp : a.tree = .path p)
    (hpnodes : p.endsInAttribute = false) (hb : ResultSet.compile source = .ok b)
    (hq : b.tree = .path q) (hqnodes : q.endsInAttribute = false)
    (hrelative : b.tree.Every (fun r => r.absolute = false) fun _ _ => True) :
    ∃ s t, ResultSet.ofExpression doc roots a = .ok s ∧ s.find doc source = .ok t ∧
      evaluate doc roots (.path (composition p q)) none = .ok t.ids := by
  have hwf := hdoc.wellFormed
  have hparsed : Parsed (.path p) := hp ▸ every_of_ofTokens ha
  have hparsed' : Parsed (.path q) := hq ▸ parsed_of_compile hb
  have hregular : Regular q := onPath_of_every hparsed' q List.mem_cons_self
  obtain ⟨ids, hids⟩ := exists_nodes_of_parsed hwf hroots hknown hparsed hpnodes
  have hset : ResultSet.ofExpression doc roots a = .ok ⟨ids, roots, a⟩ := by
    rw [ResultSet.ofExpression, hp, evaluate_of_evaluateValue hids]
    rfl
  obtain ⟨k, hcomposed⟩ := exists_evaluateValue_composition (q := q) hroots hknown hparsed hpnodes
    hids
  by_cases hempty : ids = []
  · -- an empty set is not searched, and the second steps of the composition start from nothing
    subst hempty
    refine ⟨_, ResultSet.emptied ⟨[], roots, a⟩ b, hset, ?_, ?_⟩
    · rw [ResultSet.find, if_pos List.isEmpty_nil, hb]
      rfl
    · rw [List.map_nil, evalSteps_nil (hregular.isAttribute_eq_false hqnodes)] at hcomposed
      exact evaluate_of_evaluateValue hcomposed
  · have hsub := sublist_elementsAround hwf hroots hknown hparsed hids
    rw [evalSteps_eq_evaluateValue hwf hknown hsub hempty (hq ▸ hrelative) k] at hcomposed
    obtain ⟨found, hfound⟩ := exists_nodes_of_parsed hwf hempty
      (known_of_sublist hwf hknown hsub) hparsed' hqnodes
    refine ⟨_, ⟨found, ids, b⟩, hset, ?_, ?_⟩
    · rw [ResultSet.find, if_neg (by simpa using hempty), ResultSet.select, hb]
      have hresult : ResultSet.ofExpression doc ids b = .ok ⟨found, ids, b⟩ := by
        rw [ResultSet.ofExpression, hq, evaluate_of_evaluateValue hfound]
        rfl
      exact congrArg (Except.mapError QueryError.evaluation) hresult
    · exact evaluate_of_evaluateValue (hcomposed.trans hfound)

/-- Found from the set of `//b`, the path `c` gives what `//b/c` selects from both ends of a
chain. -/
theorem find_child_of_descendant :
    let a : Expression := ⟨"//b", .path ⟨true, [⟨.descendantOrSelf, .element (.name "b"), []⟩]⟩⟩
    ∃ s t, ResultSet.ofExpression nest [2, 0] a = .ok s ∧ s.find nest "c" = .ok t ∧
      evaluate nest [2, 0] (.path ⟨true, [⟨.descendantOrSelf, .element (.name "b"), []⟩,
        ⟨.child, .element (.name "c"), []⟩]⟩) none = .ok t.ids ∧ t.ids = [2] := by
  intro a
  have hreachable : Reachable nest := .edit _ (.edit _ (.withRoot (.named "a")))
  have ha : Expr.ofTokens 1 [⟨.symbol .doubleSlash, 0⟩, ⟨.name "b", 2⟩, ⟨.stop, 3⟩] =
      .ok a.tree := by cbv
  have hb : ResultSet.compile "c" =
      .ok ⟨"c", .path ⟨false, [⟨.child, .element (.name "c"), []⟩]⟩⟩ := by cbv
  obtain ⟨s, t, hs, ht, hcomposed⟩ := find_eq_composition hreachable (List.cons_ne_nil 2 [0])
    (by decide +kernel) ha rfl rfl hb rfl rfl
    (by simp [Expr.Every, Expr.EveryPath, Expr.EverySteps, Expr.EveryStep, Expr.EveryList])
  refine ⟨s, t, hs, ht, hcomposed, ?_⟩
  have hvalue : evaluate nest [2, 0] (.path ⟨true, [⟨.descendantOrSelf, .element (.name "b"), []⟩,
      ⟨.child, .element (.name "c"), []⟩]⟩) none = .ok [2] := by cbv
  exact Except.ok.inj (hcomposed.symm.trans hvalue)

end MarkupPath.Selection
