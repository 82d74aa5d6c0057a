import MarkupPath.Proofs.Evaluation.Axis
import MarkupPath.Proofs.Query.Every
import MarkupPath.Proofs.Tree.Reachable
import Mathlib

/-!
# Selected nodes come in document order

Every list of nodes that an evaluation hands on is a part of the order of its setting: the
candidates of a step, those that predicates keep, what a step merges from several items, and what a
union joins. Nothing about the predicates is needed for that, since they only leave nodes out. So
the nodes that an expression selects are elements around the roots, in document order and each once
(`evaluate_in_document_order`).
-/

set_option autoImplicit false

namespace MarkupPath.Evaluation

open MarkupPath.Query MarkupPath.Tree Visiting

/-- The values of a computation, should it return one. -/
abbrev Returns {α : Type} (m : Visiting α) (P : α → Prop) : Prop := Gives (fun _ => True) m P

theorem returns_true {α : Type} (m : Visiting α) : Returns m fun _ => True := by
  intro k
  cases m.run' k <;> trivial

/-- The value, if it is a node set, is a part of the order. -/
def Ordered (env : Setting) (value : Value) : Prop :=
  ∀ ids, value = .nodes ids → ids.Sublist env.order

variable {env : Setting}

/-! ## Steps -/

/-- What predicates keep is in the order in which it was found. -/
theorem returns_keep (test : Context → Visiting Bool) (size position : Nat) (ids : List NodeId) :
    Returns (keep test size position ids) fun kept => kept.Sublist ids := by
  induction ids generalizing position with
  | nil => exact .pure (List.Sublist.refl _)
  | cons id rest ih =>
    -- whatever the test says, the item is left out or stays in front of the later ones
    refine (returns_true _).bind fun kept _ => (ih (position + 1)).bind fun later hlater => .pure ?_
    split
    · exact hlater.cons_cons id
    · exact hlater.cons id

/-- Merged groups are in document order if each group is, whether they have to be sorted or not. -/
theorem merge_sublist_order (h : env.Sound) {groups : List (List NodeId)}
    (hgroups : ∀ group ∈ groups, group.Sublist env.order) :
    (merge env groups).Sublist env.order := by
  rw [merge]
  split
  · refine h.sorted_sublist_order fun id hid => ?_
    obtain ⟨group, hgroup, hid⟩ := List.mem_flatten.1 hid
    exact (hgroups group hgroup).subset hid
  · -- at most one group has members, and that one needs no sorting
    next hfew =>
    rw [← List.flatten_filter_not_isEmpty]
    rcases Nat.le_one_iff_eq_zero_or_eq_one.1 (Nat.le_of_not_lt hfew) with hzero | hone
    · rw [List.eq_nil_of_length_eq_zero hzero]
      exact List.nil_sublist _
    · obtain ⟨group, hfilled⟩ := List.length_eq_one_iff.1 hone
      have hgroup : group ∈ groups.filter fun group => !group.isEmpty := by
        rw [hfilled]
        exact List.mem_cons_self
      rw [hfilled, List.flatten_singleton]
      exact hgroups group (List.mem_of_mem_filter hgroup)

/-- A step finds nodes in document order and none twice: each group does, and groups are merged. -/
theorem returns_evalStep (h : env.Sound) (s : Step Expr) {items : List Item}
    (hitems : ∀ x ∈ items, x.Around env) :
    Returns (evalStep env s items) fun found => found.Sublist env.order := by
  obtain ⟨axis, test, predicates⟩ := s
  rw [evalStep]
  refine Gives.bind (Gives.mapM (S := fun _ group => group.Sublist env.order) fun x hx => ?_)
    fun groups hgroups => .pure (merge_sublist_order h fun group hgroup => ?_)
  · refine (gives_candidates h (fun _ _ => trivial) (hitems x hx)).bind fun found hfound => ?_
    exact (returns_keep _ _ _ _).mono fun kept hkept => hkept.trans hfound.1
  · obtain ⟨x, -, hx⟩ := hgroups.2 group hgroup
    exact hx

/-! ## Paths -/

theorem around_of_mem_roots (h : env.Sound) : ∀ x ∈ env.roots.map Item.node, x.Around env := by
  intro x hx
  obtain ⟨r, hr, rfl⟩ := List.mem_map.1 hx
  exact h.around_of_mem hr

theorem around_of_mem_order (h : env.Sound) {ids : List NodeId} (hsub : ids.Sublist env.order) :
    ∀ x ∈ ids.map Item.node, x.Around env := by
  intro x hx
  obtain ⟨id, hid, rfl⟩ := List.mem_map.1 hx
  exact (h.mem_order_iff.1 (hsub.subset hid)).2

theorem filterMap_node? (ids : List NodeId) : (ids.map Item.node).filterMap Item.node? = ids := by
  rw [List.filterMap_map]
  exact List.filterMap_some

/-- Steps select document order; without a step the items must be in it already. -/
theorem returns_evalSteps (h : env.Sound) (steps : List (Step Expr)) {items : List Item}
    (hitems : ∀ x ∈ items, x.Around env)
    (hstart : steps = [] → (items.filterMap Item.node?).Sublist env.order) :
    Returns (evalSteps env steps items) (Ordered env) := by
  induction steps generalizing items with
  | nil =>
    rw [evalSteps]
    refine .pure fun ids hids => ?_
    cases hids
    exact hstart rfl
  | cons s rest ih =>
    rw [evalSteps]
    split
    · exact .pure fun ids hids => nomatch hids
    · -- what a step selects is in order, so it may be the last one
      refine (returns_evalStep h s hitems).bind fun found hfound => ?_
      refine ih (around_of_mem_order h hfound) fun _ => ?_
      rw [filterMap_node?]
      exact hfound

theorem returns_evalPath (h : env.Sound) {p : Path Expr} (hp : p.steps ≠ []) {starts : List Item}
    (hstarts : ∀ x ∈ starts, x.Around env) : Returns (evalPath env p starts) (Ordered env) := by
  obtain ⟨absolute, steps⟩ := p
  rw [evalPath]
  refine returns_evalSteps h steps (fun x hx => ?_) fun hnil => absurd hnil hp
  split at hx
  · cases List.mem_singleton.1 hx
    trivial
  · exact hstarts x hx

/-- Each path of a union finds nodes of the trees of the roots; they are sorted afterwards. -/
theorem returns_evalPaths (h : env.Sound) {paths : List (Path Expr)}
    (hpaths : ∀ p ∈ paths, p.steps ≠ []) {starts : List Item}
    (hstarts : ∀ x ∈ starts, x.Around env) :
    Returns (evalPaths env paths starts) fun found => found ⊆ env.order := by
  induction paths with
  | nil =>
    rw [evalPaths]
    exact .pure (List.nil_subset _)
  | cons p rest ih =>
    rw [evalPaths]
    refine (returns_evalPath h (hpaths p List.mem_cons_self) hstarts).bind fun value hvalue => ?_
    refine (ih fun q hq => hpaths q (List.mem_cons_of_mem _ hq)).bind fun later hlater => .pure ?_
    refine List.append_subset.2 ⟨?_, hlater⟩
    cases value with
    | nodes ids => exact (hvalue ids rfl).subset
    | _ => exact List.nil_subset _

/-! ## Expressions -/

/-- A call never yields a node set. -/
theorem nodes?_of_call {doc : Document} {ctx : Context} {name : String} {args : List Value}
    {value : Value} (h : call doc ctx name args = .ok value) : value.nodes? = none := by
  unfold call at h
  split at h <;> cases h <;> rfl

/-- Only paths and unions yield node sets. -/
theorem returns_eval_of_other {e : Expr} (hpath : ∀ p, e ≠ .path p) (hunion : ∀ ps, e ≠ .union ps)
    (ctx : Context) : Returns (eval env e ctx) fun value => value.nodes? = none := by
  cases e with
  | path p => exact absurd rfl (hpath p)
  | union ps => exact absurd rfl (hunion ps)
  | binary op left right =>
    cases op with
    | or =>
      rw [eval]
      refine (returns_true _).bind fun l _ => ?_
      split
      · exact .pure rfl
      · exact (returns_true _).bind fun r _ => .pure rfl
    | and =>
      rw [eval]
      refine (returns_true _).bind fun l _ => ?_
      split
      · exact (returns_true _).bind fun r _ => .pure rfl
      · exact .pure rfl
    | compare op =>
      rw [eval]
      exact (returns_true _).bind fun l _ => (returns_true _).bind fun r _ => .pure rfl
    | arithmetic op =>
      rw [eval]
      exact (returns_true _).bind fun l _ => (returns_true _).bind fun r _ => .pure rfl
  | not arg =>
    rw [eval]
    exact (returns_true _).bind fun value _ => .pure rfl
  | negate arg =>
    rw [eval]
    exact (returns_true _).bind fun value _ => .pure rfl
  | call name args =>
    rw [eval]
    refine (returns_true _).bind fun values _ => ?_
    exact .lift (fun value hvalue => nodes?_of_call hvalue) fun _ _ => trivial
  | _ =>
    rw [eval]
    exact .pure rfl

/-- The paths that an expression consists of, if it is a path or a union. -/
def ownPaths : Expr → List (Path Expr)
  | .path p => [p]
  | .union paths => paths
  | _ => []

/-- What a whole expression evaluates to is ordered if it is a node set. -/
theorem returns_evalFrom (h : env.Sound) {e : Expr} (hpaths : ∀ p ∈ ownPaths e, p.steps ≠ [])
    (first : NodeId) : Returns (evalFrom env first e) (Ordered env) := by
  have hroots := around_of_mem_roots h
  unfold evalFrom
  split
  · exact returns_evalPath h (hpaths _ List.mem_cons_self) hroots
  · refine (returns_evalPaths h hpaths hroots).bind fun found hfound => .pure fun ids hids => ?_
    cases hids
    exact h.sorted_sublist_order hfound
  · exact .pure fun ids hids => nomatch hids
  · next e hpath hunion _ =>
    refine (returns_eval_of_other hpath hunion _).mono fun value hvalue ids hids => ?_
    rw [hids] at hvalue
    cases hvalue

/-- What holds of all paths of an expression holds of those that it is made of at the top. -/
theorem onPath_of_every {onPath : Path Expr → Prop} {onCall : String → Nat → Prop} {e : Expr}
    (h : e.Every onPath onCall) : ∀ p ∈ ownPaths e, onPath p := by
  have hpath : ∀ {p : Path Expr}, Expr.EveryPath onPath onCall p → onPath p := by
    intro p hp
    obtain ⟨absolute, steps⟩ := p
    rw [Expr.EveryPath] at hp
    exact hp.1
  cases e with
  | path p =>
    rw [Expr.Every] at h
    intro q hq
    cases List.mem_singleton.1 hq
    exact hpath h
  | union paths =>
    rw [Expr.Every] at h
    change ∀ p ∈ paths, onPath p
    induction paths with
    | nil => exact fun p hp => nomatch hp
    | cons p rest ih =>
      rw [Expr.EveryPaths] at h
      exact List.forall_mem_cons.2 ⟨hpath h.1, ih h.2⟩
  | _ => exact fun p hp => nomatch hp

/-! ## Whole evaluations -/

theorem checkKnown_eq_ok_iff {doc : Document} {ids : List NodeId} :
    checkKnown doc ids = .ok () ↔ ∀ id ∈ ids, id < doc.size := by
  rw [checkKnown]
  cases hfind : ids.find? fun id => !doc.contains id with
  | none =>
    refine ⟨fun _ id hid => ?_, fun _ => rfl⟩
    simpa [Document.contains] using List.find?_eq_none.1 hfind id hid
  | some id =>
    refine ⟨(nomatch ·), fun hall => ?_⟩
    have hunknown : ¬ id < doc.size := by
      simpa [Document.contains] using List.find?_some hfind
    exact absurd (hall id (List.mem_of_find?_eq_some hfind)) hunknown

/-- Over known roots an evaluation is one in a fresh setting. -/
theorem evaluateValue_eq {doc : Document} {roots : List NodeId} {first : NodeId} {e : Expr}
    {limit : Option Nat} (hfirst : roots.head? = some first) (hknown : ∀ r ∈ roots, r < doc.size) :
    evaluateValue doc roots e limit = (evalFrom (Setting.of doc roots limit) first e).run' 0 := by
  cases roots with
  | nil => cases hfirst
  | cons r rest =>
    cases hfirst
    rw [evaluateValue, checkKnown_eq_ok_iff.2 hknown]
    rfl

theorem known_of_evaluateValue {doc : Document} {roots : List NodeId} {e : Expr}
    {limit : Option Nat} {value : Value} (hok : evaluateValue doc roots e limit = .ok value) :
    (∃ first, roots.head? = some first) ∧ ∀ r ∈ roots, r < doc.size := by
  cases roots with
  | nil => cases hok
  | cons first rest =>
    rw [evaluateValue] at hok
    obtain ⟨u, hcheck, -⟩ := exists_of_bind_eq_ok hok
    exact ⟨⟨first, rfl⟩, checkKnown_eq_ok_iff.1 hcheck⟩

/-- The nodes that an expression selects are elements of the trees around the roots, and they come
in document order, each once. -/
theorem evaluate_in_document_order {doc : Document} {roots ids : List NodeId} {e : Expr}
    {limit : Option Nat} (hdoc : Reachable doc)
    (hpaths : e.Every (fun p => p.steps ≠ []) fun _ _ => True)
    (hok : evaluate doc roots e limit = .ok ids) :
    ids.Pairwise (doc.Before roots) ∧ ids.Nodup ∧
      ∀ id ∈ ids, doc.isElement id = true ∧ ∃ r ∈ roots, doc.SameTree r id := by
  have hvalue : evaluateValue doc roots e limit = .ok (.nodes ids) := by
    obtain ⟨value, hvalue, hok⟩ := exists_of_bind_eq_ok hok
    cases value with
    | nodes found =>
      cases hok
      exact hvalue
    | _ => cases hok
  obtain ⟨⟨first, hfirst⟩, hknown⟩ := known_of_evaluateValue hvalue
  have henv := Setting.Sound.of hdoc.wellFormed hknown limit
  have hordered := returns_evalFrom henv (onPath_of_every hpaths) first 0
  rw [← evaluateValue_eq hfirst hknown, hvalue] at hordered
  have hsub : ids.Sublist (Setting.of doc roots limit).order := hordered ids rfl
  exact ⟨henv.pairwise_order.sublist hsub, henv.nodup_order.sublist hsub,
    fun id hid => henv.mem_order_iff.1 (hsub.subset hid)⟩

/-- A chain of three elements. -/
def nest : Document :=
  ((Document.withRoot (.named "a")).after (.createChild 0 (.named "b") (.named "b"))).after
    (.createChild 1 (.named "c") (.named "c"))

/-- With nested roots, inner one first, what lies below both is met twice and out of order. -/
theorem evaluate_below_nested_roots :
    let below : Expr := .path ⟨false, [⟨.descendantOrSelf, .any, []⟩]⟩
    evaluate nest [1, 0] below none = .ok [0, 1, 2] ∧
      [0, 1, 2].Pairwise (nest.Before [1, 0]) := by
  have hok : evaluate nest [1, 0] (.path ⟨false, [⟨.descendantOrSelf, .any, []⟩]⟩) none =
      .ok [0, 1, 2] := by cbv
  have hreachable : Reachable nest := .edit _ (.edit _ (.withRoot (.named "a")))
  refine ⟨hok, (evaluate_in_document_order hreachable ?_ hok).1⟩
  simp [Expr.Every, Expr.EveryPath, Expr.EverySteps, Expr.EveryStep, Expr.EveryList]

end MarkupPath.Evaluation
