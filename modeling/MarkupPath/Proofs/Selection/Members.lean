import MarkupPath.Proofs.Evaluation.EachRoot
import MarkupPath.Proofs.Selection.Narrowing

/-!
# Finding from each member

A set is searched with its members as roots, so what holds of roots holds of members: a path that is
relative throughout finds from a set what it finds from the sets of its single members
(`relative_merges`). This is the reason why a position in such a path counts below one member and
never across members.
-/

set_option autoImplicit false

namespace MarkupPath.Selection

open MarkupPath.Evaluation MarkupPath.Query MarkupPath.Tree

namespace ResultSet

/-- The set of one node alone. -/
def only (s : ResultSet) (m : NodeId) : ResultSet := { s with ids := [m] }

/-- To search a set that has members is to evaluate over them. -/
theorem map_ids_find {s : ResultSet} (hne : s.ids ≠ []) (doc : Document) {source : String}
    {e : Expression} (he : compile source = .ok e) :
    (s.find doc source).map ids = (evaluate doc s.ids e.tree none).mapError .evaluation := by
  rw [find, if_neg (by simpa using hne), select, he]
  change ((ofExpression doc s.ids e).mapError QueryError.evaluation).map ids = _
  rw [ofExpression]
  cases evaluate doc s.ids e.tree none <;> rfl

end ResultSet

/-- A parsed path that selects nodes and is relative throughout selects from some roots the merge of
what it selects from each of them alone; and what it finds from a set, with members or not, is the
merge of what it finds from the sets of its single members. -/
theorem relative_merges {doc : Document} (hdoc : Reachable doc) {p : Path Expr}
    (hnodes : p.endsInAttribute = false)
    (hrelative : (Expr.path p).Every (fun q => q.absolute = false) fun _ _ => True) :
    (∀ (limit : Nat) (tokens : List Token), Expr.ofTokens limit tokens = .ok (.path p) →
      ∀ roots : List NodeId, roots ≠ [] → (∀ r ∈ roots, r < doc.size) →
        ∃ ids, evaluate doc roots (.path p) none = .ok ids ∧
          Merges doc roots (fun r => evaluate doc [r] (.path p) none) ids) ∧
    ∀ (source : String) (e : Expression), ResultSet.compile source = .ok e → e.tree = .path p →
      ∀ s : ResultSet, (∀ m ∈ s.ids, m < doc.size) →
        ∃ t, s.find doc source = .ok t ∧
          Merges doc s.ids (fun m => ((s.only m).find doc source).map ResultSet.ids) t.ids := by
  have hwf := hdoc.wellFormed
  constructor
  · intro limit tokens hparse roots hroots hknown
    exact merges_of_relative hwf hknown (every_of_ofTokens hparse) hnodes hrelative hroots
  · intro source e he htree s hknown
    by_cases hne : s.ids = []
    · -- an empty set has no members to find from, and nothing is found
      refine ⟨s.emptied e, ?_, ?_⟩
      · rw [ResultSet.find, hne, if_pos List.isEmpty_nil, he]
        rfl
      · rw [hne]
        exact ⟨by simp, by simp [ResultSet.emptied], .nil, .nil⟩
    · have hparsed : Parsed (.path p) := htree ▸ parsed_of_compile he
      obtain ⟨ids, hids, hmerges⟩ := merges_of_relative hwf hknown hparsed hnodes hrelative hne
      have hfind := ResultSet.map_ids_find hne doc he
      rw [htree, hids] at hfind
      cases ht : s.find doc source with
      | error fault =>
        rw [ht] at hfind
        cases hfind
      | ok t =>
        rw [ht] at hfind
        obtain rfl : t.ids = ids := Except.ok.inj hfind
        refine ⟨t, rfl, hmerges.mapError (f := QueryError.evaluation) fun m _ => ?_⟩
        rw [← htree]
        exact ResultSet.map_ids_find (s := s.only m) (List.cons_ne_nil m []) doc he

/-- The children of two nested members are found in document order, whichever member comes first. -/
theorem children_of_nested_members :
    let leafless : Path Expr := ⟨false, [⟨.child, .element .wildcard,
      [.not (.path ⟨false, [⟨.child, .element (.name "d"), []⟩]⟩)]⟩]⟩
    let s : ResultSet := ⟨[1, 0], [0], ⟨"*[not(d)]", .path leafless⟩⟩
    evaluate nest [1, 0] (.path leafless) none = .ok [1, 2] ∧
      Merges nest [1, 0] (fun r => evaluate nest [r] (.path leafless) none) [1, 2] ∧
      ∃ t, s.find nest "*[not(d)]" = .ok t ∧ Merges nest [1, 0]
        (fun m => ((s.only m).find nest "*[not(d)]").map ResultSet.ids) t.ids := by
  intro leafless s
  have hreachable : Reachable nest := .edit _ (.edit _ (.withRoot (.named "a")))
  have hparse : Expr.ofTokens 4 [⟨.symbol .star, 0⟩, ⟨.symbol .openBracket, 1⟩, ⟨.symbol .not, 2⟩,
      ⟨.symbol .openParen, 5⟩, ⟨.name "d", 6⟩, ⟨.symbol .closeParen, 7⟩,
      ⟨.symbol .closeBracket, 8⟩, ⟨.stop, 9⟩] = .ok (.path leafless) := by cbv
  have hcompile : ResultSet.compile "*[not(d)]" = .ok ⟨"*[not(d)]", .path leafless⟩ := by cbv
  have hvalue : evaluate nest [1, 0] (.path leafless) none = .ok [1, 2] := by cbv
  have hrelative : (Expr.path leafless).Every (fun q => q.absolute = false) fun _ _ => True := by
    simp [leafless, Expr.Every, Expr.EveryPath, Expr.EverySteps, Expr.EveryStep, Expr.EveryList]
  obtain ⟨hroots, hmembers⟩ := relative_merges hreachable (p := leafless) rfl hrelative
  obtain ⟨ids, hids, hmerges⟩ := hroots 4 _ hparse [1, 0] (List.cons_ne_nil 1 [0])
    (by decide +kernel)
  cases hvalue.symm.trans hids
  exact ⟨hvalue, hmerges, hmembers "*[not(d)]" _ hcompile rfl s (by decide +kernel)⟩

end MarkupPath.Selection
