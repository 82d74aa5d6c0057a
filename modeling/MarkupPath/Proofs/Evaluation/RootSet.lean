import MarkupPath.Proofs.Evaluation.Composition
import MarkupPath.Proofs.Evaluation.Union

/-!
# Roots are a set

Within one tree it does not matter in which order the roots of an evaluation come or how often. The
order of the setting is that of their one tree (`elementsAround_eq`), and the candidates of a step
below the document come in this order and are told by membership among the roots, so two settings
whose roots are the same nodes match everywhere (`matching_of_sameRoots`,
`matchingDocument_of_sameRoots`). In one setting, the nodes that a path selects depend on its
starts only as a set (`nodes_pathMeaning_congr`). Together, an expression that selects nodes selects
the same list from both (`evaluate_of_sameRoots`).
-/

set_option autoImplicit false

namespace MarkupPath.Evaluation

open MarkupPath.Query MarkupPath.Tree Visiting

/-! ## Computations that never fail -/

namespace Visiting

variable {α α' : Type} {φ : α → α'} {P : α → Prop} {P' : α' → Prop} {m : Visiting α}
  {m' : Visiting α'}

/-- A computation without a fault gives a result from any count of visits. -/
theorem Gives.exists_ok (h : Gives (fun _ => False) m P) (k : Nat) :
    ∃ a k', m k = .ok (a, k') ∧ P a := by
  have hk : Outcome (fun _ => False) P ((m k).map (·.1)) := h k
  cases hrun : m k with
  | error e =>
    rw [hrun] at hk
    exact hk.elim
  | ok result =>
    rw [hrun] at hk
    exact ⟨result.1, result.2, rfl, hk⟩

/-- Two computations that never fail mirror each other, whatever they count, if the second one gives
the image of what the first one gives. -/
theorem Mirrors.of_gives (hm : Gives (fun _ => False) m P) (hm' : Gives (fun _ => False) m' P')
    (himage : ∀ a a', P a → P' a' → a' = φ a) : Mirrors (fun _ _ => True) m m' φ P := by
  intro k k' _
  obtain ⟨a, n, hrun, ha⟩ := hm.exists_ok k
  obtain ⟨a', n', hrun', ha'⟩ := hm'.exists_ok k'
  rw [hrun, hrun', himage a a' ha ha']
  exact .ok ha trivial

end Visiting

/-! ## Starts -/

section Starts

variable {doc : Document} {roots : List NodeId} {starts starts' : List Item}

/-- The nodes that a path means depend on its starts only as a set. -/
theorem nodes_pathMeaning_congr {p : Path Expr} (hp : p.steps ≠ [])
    (hsame : ∀ x, x ∈ starts' ↔ x ∈ starts) :
    (pathMeaning doc roots p starts').nodes?.getD [] =
      (pathMeaning doc roots p starts).nodes?.getD [] := by
  obtain ⟨absolute, steps⟩ := p
  rw [pathMeaning, pathMeaning]
  cases absolute with
  | true => rfl
  | false =>
    cases steps with
    | nil => exact absurd rfl hp
    | cons s rest =>
      rw [if_neg Bool.false_ne_true, if_neg Bool.false_ne_true, stepsMeaning, stepsMeaning]
      split
      · rfl
      · simp only [hsame]

theorem inSomePath_congr {paths : List (Path Expr)} (hpaths : ∀ p ∈ paths, p.steps ≠ [])
    (hsame : ∀ x, x ∈ starts' ↔ x ∈ starts) (y : NodeId) :
    inSomePath doc roots paths starts' y ↔ inSomePath doc roots paths starts y := by
  induction paths with
  | nil => rw [inSomePath, inSomePath]
  | cons p rest ih =>
    obtain ⟨hp, hrest⟩ := List.forall_mem_cons.1 hpaths
    rw [inSomePath, inSomePath, nodes_pathMeaning_congr hp hsame, ih hrest]

end Starts

/-! ## Paths without a limit -/

/-- Without a limit parsed paths find the nodes that at least one of them means. -/
theorem exists_found {env : Setting} (h : env.Sound) (hlimit : env.limit = none)
    {paths : List (Path Expr)} (hpaths : Parsed (.union paths)) {starts : List Item}
    (hstarts : ∀ x ∈ starts, x.Around env) :
    ∃ found, (evalPaths env paths starts).run' 0 = .ok found ∧ found ⊆ env.order ∧
      ∀ y, y ∈ found ↔ inSomePath env.doc env.roots paths starts y := by
  have hsteps : ∀ p ∈ paths, p.steps ≠ [] := fun p hp => (onPath_of_every hpaths p hp).1
  rw [Parsed, Expr.Every] at hpaths
  have hgives := (returns_evalPaths h hsteps hstarts).and
    (gives_evalPaths (expected_never h hlimit) paths hpaths starts hstarts)
  obtain ⟨found, k, hrun, hfound⟩ := hgives.exists_ok 0
  refine ⟨found, ?_, hfound⟩
  rw [StateT.run', hrun]
  rfl

/-- A union of known roots is the sorted nodes of its paths. -/
theorem evaluate_union_of_run' {doc : Document} {roots : List NodeId} {paths : List (Path Expr)}
    (hroots : roots ≠ []) (hknown : ∀ r ∈ roots, r < doc.size) {found : List NodeId}
    (hfound : (evalPaths (Setting.of doc roots none) paths (roots.map Item.node)).run' 0 =
      .ok found) :
    evaluate doc roots (.union paths) none = .ok ((Setting.of doc roots none).sorted found) := by
  obtain ⟨first, hfirst⟩ := Option.isSome_iff_exists.1 (List.isSome_head?.2 hroots)
  refine evaluate_of_evaluateValue ?_
  rw [evaluateValue_eq hfirst hknown, evalFrom]
  obtain ⟨k, hrun⟩ := run'_bind_of_run'_eq
    (f := fun found => pure (Value.nodes ((Setting.of doc roots none).sorted found))) hfound
  exact hrun

/-! ## Settings with the same roots -/

section SameRoots

theorem ne_nil_of_sameRoots {roots roots' : List NodeId} (hroots : roots ≠ [])
    (hsame : ∀ r, r ∈ roots' ↔ r ∈ roots) : roots' ≠ [] := by
  obtain ⟨r, hr⟩ := List.exists_mem_of_ne_nil roots hroots
  exact List.ne_nil_of_mem ((hsame r).2 hr)

variable {doc : Document} {roots roots' : List NodeId} (hdoc : doc.WellFormed)

include hdoc

/-- Around roots of one tree are the elements of this tree, in document order. -/
theorem elementsAround_eq (htree : ∀ r ∈ roots, ∀ s ∈ roots, doc.SameTree r s) {r : NodeId}
    (hr : r ∈ roots) : doc.elementsAround roots = doc.elementsUnder (doc.top r) := by
  have htops : (roots.map doc.top).eraseDups = [doc.top r] := by
    cases roots with
    | nil => cases hr
    | cons first rest =>
      have htop : ∀ s ∈ first :: rest, doc.top s = doc.top r := fun s hs =>
        hdoc.sameTree_iff.1 (htree s hs r hr)
      have hnone : ((rest.map doc.top).filter fun t => !t == doc.top first) = [] := by
        refine List.filter_eq_nil_iff.2 fun t ht => ?_
        obtain ⟨s, hs, rfl⟩ := List.mem_map.1 ht
        rw [htop s (List.mem_cons_of_mem _ hs), htop first List.mem_cons_self]
        simp
      rw [List.map_cons, List.eraseDups_cons, hnone, List.eraseDups_nil,
        htop first List.mem_cons_self]
  rw [Document.elementsAround, htops, List.flatMap_singleton]

variable (hroots : roots ≠ []) (hknown : ∀ r ∈ roots, r < doc.size)
  (hsame : ∀ r, r ∈ roots' ↔ r ∈ roots)
  (htree : ∀ r ∈ roots, ∀ s ∈ roots, doc.SameTree r s)

include hroots hsame htree

theorem elementsAround_of_sameRoots : doc.elementsAround roots' = doc.elementsAround roots := by
  obtain ⟨r, hr⟩ := List.exists_mem_of_ne_nil roots hroots
  have htree' : ∀ r ∈ roots', ∀ s ∈ roots', doc.SameTree r s := fun r hr s hs =>
    htree r ((hsame r).1 hr) s ((hsame s).1 hs)
  rw [elementsAround_eq hdoc htree hr, elementsAround_eq hdoc htree' ((hsame r).2 hr)]

include hknown

/-- Below the document the settings answer alike, since they have one order. -/
theorem matching_of_sameRoots : Matching (fun _ _ => True) id (Setting.of doc roots none).Around
    (Setting.of doc roots none) (Setting.of doc roots' none) := by
  have hknown' : ∀ r ∈ roots', r < doc.size := fun r hr => hknown r ((hsame r).1 hr)
  have hnear : (Setting.of doc roots none).Around = doc.Around roots' := by
    funext n
    exact propext (exists_congr fun r => and_congr_left fun _ => (hsame r).symm)
  rw [hnear]
  refine .of_sublist hdoc hknown hknown' ?_
  rw [elementsAround_of_sameRoots hdoc hroots hsame htree]

/-- At the document a step has the same candidates in the same order, sorted or not. -/
theorem matchingDocument_of_sameRoots :
    MatchingDocument (fun _ _ => True) id (Setting.of doc roots none).Around
      (Setting.of doc roots none) (Setting.of doc roots' none) := by
  intro axis test
  have henv := Setting.Sound.of hdoc hknown none
  have henv' := Setting.Sound.of hdoc (fun r hr => hknown r ((hsame r).1 hr)) none
  have horder : (Setting.of doc roots' none).order = (Setting.of doc roots none).order :=
    elementsAround_of_sameRoots hdoc hroots hsame htree
  have hcandidate : ∀ y, Candidate doc roots' axis test .document y ↔
      Candidate doc roots axis test .document y := by
    intro y
    cases axis <;> simp only [Candidate, Reached, hsame]
  have hlimit : ∀ most : Nat, none = some most → False := by
    intro most hmost
    cases hmost
  have hgives : Gives (fun _ => False)
      (candidates (Setting.of doc roots none) axis test .document) _ :=
    gives_candidates henv hlimit trivial
  have hgives' : Gives (fun _ => False)
      (candidates (Setting.of doc roots' none) axis test .document) _ :=
    gives_candidates henv' hlimit trivial
  refine (Mirrors.of_gives hgives hgives' fun found found' h h' => ?_).mono fun found h id hid =>
    (henv.mem_order_iff.1 (h.1.subset hid)).2
  -- both are the part of the one order that consists of the candidates
  have hsub : found'.Sublist (Setting.of doc roots none).order := horder ▸ h'.1
  have hmem : ∀ y, y ∈ found' ↔ y ∈ found := fun y =>
    (h'.2 y).trans ((hcandidate y).trans (h.2 y).symm)
  rw [List.map_id]
  exact eq_of_sublist henv.nodup_order hsub h.1 hmem

/-- From the same starts, paths find the same nodes in both settings. -/
theorem run'_evalPaths_of_sameRoots {paths : List (Path Expr)}
    (hpaths : Expr.EveryPaths Regular KnownCall paths) :
    (evalPaths (Setting.of doc roots' none) paths (roots.map Item.node)).run' 0 =
      (evalPaths (Setting.of doc roots none) paths (roots.map Item.node)).run' 0 := by
  have hstarts : ∀ r ∈ roots, (Setting.of doc roots none).Around r := fun r hr =>
    (Setting.Sound.of hdoc hknown none).around_of_mem hr
  have hmirror := (matching_of_sameRoots hdoc hroots hknown hsame htree).mirrors_evalPaths
    (fun _ _ _ => matchingDocument_of_sameRoots hdoc hroots hknown hsame htree) paths hpaths
    (near_of_mem_map hstarts)
  have hrun := hmirror.run'_eq 0 0 trivial
  rw [Item.map_node_rename, List.map_id] at hrun
  rw [hrun, List.map_id_fun, Except.map_id, id]

/-- The paths of a union find the same nodes from the same roots, and both results are sorted
alike. -/
theorem evaluate_union_of_sameRoots {paths : List (Path Expr)} (hpaths : Parsed (.union paths)) :
    ∃ ids, evaluate doc roots (.union paths) none = .ok ids ∧
      evaluate doc roots' (.union paths) none = .ok ids := by
  have hroots' := ne_nil_of_sameRoots hroots hsame
  have hknown' : ∀ r ∈ roots', r < doc.size := fun r hr => hknown r ((hsame r).1 hr)
  have henv := Setting.Sound.of hdoc hknown none
  have henv' := Setting.Sound.of hdoc hknown' none
  have horder : (Setting.of doc roots' none).order = (Setting.of doc roots none).order :=
    elementsAround_of_sameRoots hdoc hroots hsame htree
  have hstart_iff : ∀ x, x ∈ roots'.map Item.node ↔ x ∈ roots.map Item.node := by
    simp only [List.mem_map, hsame, implies_true]
  have hstarts' : ∀ x ∈ roots'.map Item.node, x.Around (Setting.of doc roots' none) :=
    around_of_mem_roots henv'
  have hstarts : ∀ x ∈ roots.map Item.node, x.Around (Setting.of doc roots' none) :=
    fun x hx => hstarts' x ((hstart_iff x).2 hx)
  -- the second setting is entered with the former starts first, and then with its own
  obtain ⟨found, hfound, hsub, hmem⟩ := exists_found henv' rfl hpaths hstarts
  obtain ⟨found', hfound', -, hmem'⟩ := exists_found henv' rfl hpaths hstarts'
  have hsteps : ∀ p ∈ paths, p.steps ≠ [] := fun p hp => (onPath_of_every hpaths p hp).1
  have hids : ∀ y, y ∈ found' ↔ y ∈ found := fun y =>
    (hmem' y).trans ((inSomePath_congr hsteps hstart_iff y).trans (hmem y).symm)
  rw [Parsed, Expr.Every] at hpaths
  rw [run'_evalPaths_of_sameRoots hdoc hroots hknown hsame htree hpaths] at hfound
  refine ⟨_, evaluate_union_of_run' hroots hknown hfound, ?_⟩
  rw [evaluate_union_of_run' hroots' hknown' hfound', henv'.sorted_congr hsub hids,
    Setting.sorted, Setting.sorted, horder]

end SameRoots

/-- The roots of one tree act as a set: an expression that selects nodes selects the same list from
roots that are the same nodes, in whatever order and however often they come. Every expression that
is read from tokens is `Parsed` (`every_of_ofTokens`). -/
theorem evaluate_of_sameRoots {doc : Document} {roots roots' : List NodeId} {e : Expr}
    (hdoc : Reachable doc) (he : Parsed e) (hkind : kindOf e = .nodes) (hroots : roots ≠ [])
    (hknown : ∀ r ∈ roots, r < doc.size) (hsame : ∀ r, r ∈ roots' ↔ r ∈ roots)
    (htree : ∀ r ∈ roots, ∀ s ∈ roots, doc.SameTree r s) :
    ∃ ids, evaluate doc roots e none = .ok ids ∧ evaluate doc roots' e none = .ok ids := by
  have hwf := hdoc.wellFormed
  cases e with
  | union paths => exact evaluate_union_of_sameRoots hwf hroots hknown hsame htree he
  | path p =>
    have hnodes : p.endsInAttribute = false := by
      rw [kindOf, pathKind] at hkind
      split at hkind
      · cases hkind
      · next h => exact Bool.eq_false_iff.2 h
    have hroots' := ne_nil_of_sameRoots hroots hsame
    rw [evaluate_path_eq_union hwf hroots hknown he hnodes, evaluate_path_eq_union hwf hroots'
      (fun r hr => hknown r ((hsame r).1 hr)) he hnodes]
    refine evaluate_union_of_sameRoots hwf hroots hknown hsame htree ?_
    rw [Parsed, Expr.Every] at he
    rw [Parsed, Expr.Every, Expr.EveryPaths, Expr.EveryPaths]
    exact ⟨he, trivial⟩
  | binary op left right => cases op <;> cases hkind
  | call name args =>
    -- no function returns nodes
    rw [kindOf] at hkind
    unfold callKind at hkind
    split at hkind <;> cases hkind
  | _ => cases hkind

/-- The predicate looks for a `c` among the roots; what lies below two of them is still selected
once. -/
theorem evaluate_below_repeated_roots :
    let e : Expr := .path ⟨true, [⟨.descendantOrSelf, .any,
      [.path ⟨true, [⟨.child, .element (.name "c"), []⟩]⟩]⟩]⟩
    evaluate nest [2, 0] e none = .ok [0, 1, 2] ∧
      evaluate nest [0, 2, 0] e none = .ok [0, 1, 2] := by
  intro e
  have hreachable : Reachable nest := .edit _ (.edit _ (.withRoot (.named "a")))
  have hparsed : Parsed e := by
    simp [e, Expr.Every, Expr.EveryPath, Expr.EverySteps, Expr.EveryStep, Expr.EveryList, Regular,
      NodeTest.isAttribute]
  have htree : ∀ r ∈ [2, 0], ∀ s ∈ [2, 0], nest.SameTree r s := by
    simp only [hreachable.wellFormed.sameTree_iff]
    decide +kernel
  have hvalue : evaluate nest [2, 0] e none = .ok [0, 1, 2] := by cbv
  have hsame : ∀ r, r ∈ [0, 2, 0] ↔ r ∈ [2, 0] := by simp
  obtain ⟨ids, hids, hids'⟩ := evaluate_of_sameRoots hreachable hparsed rfl
    (List.cons_ne_nil 2 [0]) (by decide +kernel) hsame htree
  cases hvalue.symm.trans hids
  exact ⟨hvalue, hids'⟩

end MarkupPath.Evaluation
