import MarkupPath.Proofs.Evaluation.DocumentOrder
import MarkupPath.Proofs.Evaluation.Meaning

/-!
# Evaluation follows the chains of a path

The evaluation of an expression gives its meaning, whenever it gives a value at all: `gives_eval`
goes through all expressions, and through paths, steps and predicates along with them. A step finds
its candidates in document order, so the place that `keep` counts is the rank of a candidate
(`place_eq`), and what several items contribute is merged to the same list as if each node had been
looked at on its own (`gives_evalStep`).

The nodes that a path means are those at the ends of its chains (`mem_stepsMeaning_iff`), which
makes evaluation find exactly those (`nodes_iff_chain`).
-/

set_option autoImplicit false

namespace MarkupPath.Evaluation

open MarkupPath.Query MarkupPath.Tree Visiting

variable {env : Setting} {fault : EvaluationError → Prop}

/-! ## Places -/

/-- In a list of all candidates in document order, the place of a candidate is where it stands. -/
theorem place_eq (h : env.Sound) {axis : Axis} {test : NodeTest} {x : Item} {y : NodeId}
    {earlier later : List NodeId} (hsub : (earlier ++ y :: later).Sublist env.order)
    (hmem : ∀ z, z ∈ earlier ++ y :: later ↔ Candidate env.doc env.roots axis test x z) :
    place env.doc env.roots axis test x y =
      ⟨y, earlier.length + 1, (earlier ++ y :: later).length⟩ := by
  have hnodup := h.nodup_order.sublist hsub
  have hpairs := h.pairwise_order.sublist hsub
  rw [List.pairwise_append, List.pairwise_cons] at hpairs
  obtain ⟨-, ⟨hlater, -⟩, hearlier⟩ := hpairs
  -- what stands earlier in the list comes before the candidate, and nothing else does
  have hbefore : {z | Candidate env.doc env.roots axis test x z ∧ env.doc.Before env.roots z y} =
      ↑earlier.toFinset := by
    ext z
    simp only [Set.mem_ofPred_eq, List.coe_toFinset, ← hmem]
    constructor
    · rintro ⟨hz, hzy⟩
      rcases List.mem_append.1 hz with hz | hz
      · exact hz
      · rcases List.mem_cons.1 hz with rfl | hz
        · exact absurd hzy (h.wellFormed.before_asymm hzy)
        · exact absurd (hlater z hz) (h.wellFormed.before_asymm hzy)
    · exact fun hz => ⟨List.mem_append_left _ hz, hearlier z hz y List.mem_cons_self⟩
  have hall : {z | Candidate env.doc env.roots axis test x z} =
      ↑(earlier ++ y :: later).toFinset := by
    ext z
    simp only [Set.mem_ofPred_eq, List.coe_toFinset, hmem]
  rw [place, hbefore, hall, Set.ncard_coe_finset, Set.ncard_coe_finset,
    List.toFinset_card_of_nodup hnodup,
    List.toFinset_card_of_nodup (hnodup.sublist (List.sublist_append_left _ _))]

/-- What `keep` keeps, each member at its place, if the test decides a condition. -/
theorem gives_keep {test : Context → Visiting Bool} {H : Context → Prop} {size position : Nat}
    {ids : List NodeId} (htest : ∀ ctx : Context, ctx.node ∈ ids →
      Gives fault (test ctx) fun kept => kept = true ↔ H ctx) :
    Gives fault (keep test size position ids) fun kept => ∀ y, y ∈ kept ↔
      ∃ earlier later, ids = earlier ++ y :: later ∧ H ⟨y, position + earlier.length, size⟩ := by
  induction ids generalizing position with
  | nil =>
    refine .pure fun y => ⟨(nomatch ·), ?_⟩
    rintro ⟨earlier, later, hids, -⟩
    simp at hids
  | cons id rest ih =>
    refine (htest ⟨id, position, size⟩ List.mem_cons_self).bind fun kept hkept => ?_
    have hrest := @ih (position + 1) fun ctx hctx => htest ctx (List.mem_cons_of_mem _ hctx)
    refine hrest.bind fun later hlater => .pure fun y => ?_
    have hhead : y ∈ (if kept then id :: later else later) ↔
        (H ⟨id, position, size⟩ ∧ y = id) ∨ y ∈ later := by
      rw [← hkept]
      cases kept <;> simp
    rw [hhead, hlater]
    -- a member of the tail stands one place further in the whole list
    constructor
    · rintro (⟨hid, rfl⟩ | ⟨earlier, after, rfl, hy⟩)
      · exact ⟨[], rest, rfl, hid⟩
      · refine ⟨id :: earlier, after, rfl, ?_⟩
        rw [List.length_cons, ← Nat.add_assoc, Nat.add_right_comm]
        exact hy
    · rintro ⟨earlier, after, hids, hy⟩
      cases earlier with
      | nil =>
        cases hids
        exact .inl ⟨hy, rfl⟩
      | cons first earlier =>
        cases hids
        rw [List.length_cons, ← Nat.add_assoc, Nat.add_right_comm] at hy
        exact .inr ⟨earlier, after, rfl, hy⟩

/-! ## Steps -/

theorem nodesWith_eq_of_sublist (h : env.Sound) {ids : List NodeId} {P : NodeId → Prop}
    (hsub : ids.Sublist env.order) (hmem : ∀ y, y ∈ ids ↔ P y) :
    nodesWith env.doc env.roots P = ids := by
  rw [nodesWith, ← h.order_eq]
  refine Eq.trans (List.filter_congr fun y _ => ?_) (eq_filter_of_sublist h.nodup_order hsub).symm
  exact decide_eq_decide.2 (hmem y).symm

/-- Merging loses no node and adds none. -/
theorem mem_merge_iff (h : env.Sound) {groups : List (List NodeId)}
    (hgroups : ∀ group ∈ groups, group.Sublist env.order) {y : NodeId} :
    y ∈ merge env groups ↔ ∃ group ∈ groups, y ∈ group := by
  have hsub : groups.flatten ⊆ env.order := by
    intro z hz
    obtain ⟨group, hgroup, hz⟩ := List.mem_flatten.1 hz
    exact (hgroups group hgroup).subset hz
  rw [← List.mem_flatten]
  rw [merge]
  split
  · exact h.mem_sorted_iff hsub
  · exact Iff.rfl

section Step

variable (h : env.Sound) (hlimit : ∀ most, env.limit = some most → fault (.limit most))
  {axis : Axis} {test : NodeTest} {predicates : List Expr}
  (hholds : ∀ ctx : Context, env.Around ctx.node → Gives fault (holdAll env predicates ctx)
    fun kept => kept = true ↔ allHold env.doc env.roots predicates ctx)

include h hlimit hholds

/-- What a step keeps at one item, if its predicates are decided. -/
theorem gives_group {x : Item} (hx : x.Around env) :
    Gives fault (do
      let found ← candidates env axis test x
      keep (fun ctx => holdAll env predicates ctx) found.length 1 found) fun group =>
        group.Sublist env.order ∧
          ∀ y, y ∈ group ↔ stepLeads env.doc env.roots ⟨axis, test, predicates⟩ x y := by
  refine (gives_candidates h hlimit hx).bind fun found hfound => ?_
  obtain ⟨hsub, hmem⟩ := hfound
  have hkeep : Gives fault (keep (fun ctx => holdAll env predicates ctx) found.length 1 found)
      fun group => ∀ y, y ∈ group ↔ ∃ earlier later, found = earlier ++ y :: later ∧
        allHold env.doc env.roots predicates ⟨y, 1 + earlier.length, found.length⟩ :=
    gives_keep fun ctx hctx => hholds ctx (h.mem_order_iff.1 (hsub.subset hctx)).2
  refine ((returns_keep _ _ _ _).and hkeep).mono fun group hgroup => ?_
  obtain ⟨hgroup, hiff⟩ := hgroup
  refine ⟨hgroup.trans hsub, fun y => (hiff y).trans ?_⟩
  -- the place that `keep` counts is the rank among all candidates
  rw [stepLeads, ← hmem y]
  constructor
  · rintro ⟨earlier, later, rfl, hall⟩
    refine ⟨List.mem_append_right _ List.mem_cons_self, ?_⟩
    rw [place_eq h hsub hmem, Nat.add_comm]
    exact hall
  · rintro ⟨hy, hall⟩
    obtain ⟨earlier, later, rfl⟩ := List.append_of_mem hy
    rw [place_eq h hsub hmem, Nat.add_comm] at hall
    exact ⟨earlier, later, rfl, hall⟩

/-- A step selects the nodes that it leads to from some item, if its predicates are decided. -/
theorem gives_evalStep {items : List Item} (hitems : ∀ x ∈ items, x.Around env) :
    Gives fault (evalStep env ⟨axis, test, predicates⟩ items) fun found =>
      found = nodesWith env.doc env.roots fun y =>
        ∃ x ∈ items, stepLeads env.doc env.roots ⟨axis, test, predicates⟩ x y := by
  rw [evalStep]
  refine Gives.bind (Gives.mapM fun x hx => gives_group h hlimit hholds (hitems x hx))
    fun groups hgroups => .pure ?_
  have hsub : ∀ group ∈ groups, group.Sublist env.order := by
    intro group hgroup
    obtain ⟨x, -, hx⟩ := hgroups.2 group hgroup
    exact hx.1
  refine (nodesWith_eq_of_sublist h (merge_sublist_order h hsub) fun y => ?_).symm
  rw [mem_merge_iff h hsub]
  constructor
  · rintro ⟨group, hgroup, hy⟩
    obtain ⟨x, hx, -, hiff⟩ := hgroups.2 group hgroup
    exact ⟨x, hx, (hiff y).1 hy⟩
  · rintro ⟨x, hx, hy⟩
    obtain ⟨group, hgroup, -, hiff⟩ := hgroups.1 x hx
    exact ⟨group, hgroup, (hiff y).2 hy⟩

end Step

/-! ## Calls -/

/-- A call fails only if there is no function of that name and number of arguments. -/
theorem of_call_eq_error {doc : Document} {ctx : Context} {name : String} {args : List Value}
    {e : EvaluationError} (h : call doc ctx name args = .error e) :
    e = .unknownFunction name args.length ∧ arity? name ≠ some args.length := by
  unfold call at h
  split at h <;> cases h
  next hposition hlast htext hname hnot hcontains =>
  refine ⟨rfl, fun harity => ?_⟩
  obtain ⟨entry, hfind, hargs⟩ := Option.map_eq_some_iff.1 harity
  have hmem := List.mem_of_find?_eq_some hfind
  have hentry := List.find?_some hfind
  rw [beq_iff_eq] at hentry
  subst hentry
  -- each function has been tried with the number of arguments that it takes
  simp only [functions, List.mem_cons, List.not_mem_nil, or_false] at hmem
  rcases hmem with rfl | rfl | rfl | rfl | rfl | rfl
  · obtain ⟨whole, part, rfl⟩ := List.length_eq_two.1 hargs.symm
    exact hcontains whole part rfl rfl
  · obtain ⟨arg, rfl⟩ := List.length_eq_one_iff.1 hargs.symm
    exact hnot arg rfl rfl
  · exact hposition rfl (List.eq_nil_of_length_eq_zero hargs.symm)
  · exact hlast rfl (List.eq_nil_of_length_eq_zero hargs.symm)
  · exact htext rfl (List.eq_nil_of_length_eq_zero hargs.symm)
  · exact hname rfl (List.eq_nil_of_length_eq_zero hargs.symm)

/-! ## Expressions -/

theorem around_singleton {id : NodeId} (hid : env.Around id) :
    ∀ x ∈ [Item.node id], x.Around env := by
  intro x hx
  cases List.mem_singleton.1 hx
  exact hid

/-- The faults to be expected of expressions in which all paths and calls satisfy conditions: paths
have steps, and a limit on visits or an unknown function is among the faults. -/
structure Expected (env : Setting) (fault : EvaluationError → Prop) (onPath : Path Expr → Prop)
    (onCall : String → Nat → Prop) : Prop where
  sound : env.Sound
  limit : ∀ most, env.limit = some most → fault (.limit most)
  path : ∀ p, onPath p → p.steps ≠ []
  call : ∀ name n, onCall name n → arity? name = some n ∨ fault (.unknownFunction name n)

variable {onPath : Path Expr → Prop} {onCall : String → Nat → Prop}

mutual

/-- An evaluation that does not fail gives the meaning of the expression. -/
theorem gives_eval (h : Expected env fault onPath onCall) :
    ∀ e : Expr, e.Every onPath onCall → ∀ ctx : Context, env.Around ctx.node →
    Gives fault (eval env e ctx) fun value => meaning? env.doc env.roots e ctx = some value
  | .path p, he, ctx, hctx => by
    rw [Expr.Every] at he
    rw [eval]
    refine (gives_evalPath h p he _ (around_singleton hctx)).mono fun value hvalue => ?_
    rw [meaning?, hvalue]
  | .union paths, he, ctx, hctx => by
    -- the paths find their nodes separately, and sorting puts them into one list
    have hsteps : ∀ p ∈ paths, p.steps ≠ [] := fun p hp =>
      h.path p (onPath_of_every he p hp)
    rw [Expr.Every] at he
    rw [eval]
    have hfound := returns_evalPaths h.sound hsteps (around_singleton hctx)
    refine (hfound.and (gives_evalPaths h paths he _ (around_singleton hctx))).bind
      fun found hfound => .pure ?_
    rw [meaning?]
    refine congrArg (fun ids => some (Value.nodes ids)) ?_
    refine nodesWith_eq_of_sublist h.sound (h.sound.sorted_sublist_order hfound.1) fun y => ?_
    rw [h.sound.mem_sorted_iff hfound.1]
    exact hfound.2 y
  | .attribute test, _, ctx, _ => by
    rw [eval]
    exact .pure (by rw [meaning?])
  | .binary .or left right, he, ctx, hctx => by
    rw [Expr.Every] at he
    rw [eval]
    refine (gives_eval h left he.1 ctx hctx).bind fun l hl => ?_
    -- the right operand counts only where the left one does not decide
    split
    · next htrue => exact .pure (by simp [meaning?, hl, htrue])
    · next hfalse =>
      refine (gives_eval h right he.2 ctx hctx).bind fun r hr => .pure ?_
      simp [meaning?, hl, hr, hfalse]
  | .binary .and left right, he, ctx, hctx => by
    rw [Expr.Every] at he
    rw [eval]
    refine (gives_eval h left he.1 ctx hctx).bind fun l hl => ?_
    split
    · next htrue =>
      refine (gives_eval h right he.2 ctx hctx).bind fun r hr => .pure ?_
      simp [meaning?, hl, hr, htrue]
    · next hfalse => exact .pure (by simp [meaning?, hl, hfalse])
  | .binary (.compare op) left right, he, ctx, hctx => by
    rw [Expr.Every] at he
    rw [eval]
    refine (gives_eval h left he.1 ctx hctx).bind fun l hl => ?_
    refine (gives_eval h right he.2 ctx hctx).bind fun r hr => .pure ?_
    simp [meaning?, hl, hr]
  | .binary (.arithmetic op) left right, he, ctx, hctx => by
    rw [Expr.Every] at he
    rw [eval]
    refine (gives_eval h left he.1 ctx hctx).bind fun l hl => ?_
    refine (gives_eval h right he.2 ctx hctx).bind fun r hr => .pure ?_
    simp [meaning?, hl, hr]
  | .not arg, he, ctx, hctx => by
    rw [Expr.Every] at he
    rw [eval]
    refine (gives_eval h arg he ctx hctx).bind fun value hvalue => .pure ?_
    simp [meaning?, hvalue]
  | .negate arg, he, ctx, hctx => by
    rw [Expr.Every] at he
    rw [eval]
    refine (gives_eval h arg he ctx hctx).bind fun value hvalue => .pure ?_
    simp [meaning?, hvalue]
  | .call name args, he, ctx, hctx => by
    rw [Expr.Every] at he
    rw [eval]
    refine (gives_evalArgs h args he.2 ctx hctx).bind fun values hvalues => ?_
    obtain ⟨hmeanings, hlength⟩ := hvalues
    refine .lift (fun value hvalue => ?_) fun e herror => ?_
    · rw [meaning?, hmeanings]
      exact congrArg Except.toOption hvalue
    · obtain ⟨rfl, hunknown⟩ := of_call_eq_error herror
      rw [hlength] at hunknown ⊢
      exact (h.call name args.length he.1).resolve_left hunknown
  | .number x, _, ctx, _ => by
    rw [eval]
    exact .pure (by rw [meaning?])
  | .string text, _, ctx, _ => by
    rw [eval]
    exact .pure (by rw [meaning?])

/-- Arguments have their meanings, as many as there are. -/
theorem gives_evalArgs (h : Expected env fault onPath onCall) :
    ∀ args : List Expr, Expr.EveryList onPath onCall args →
    ∀ ctx : Context, env.Around ctx.node → Gives fault (evalArgs env args ctx) fun values =>
      meanings? env.doc env.roots args ctx = some values ∧ values.length = args.length
  | [], _, ctx, _ => by
    rw [evalArgs]
    exact .pure ⟨by rw [meanings?], rfl⟩
  | arg :: rest, hargs, ctx, hctx => by
    rw [Expr.EveryList] at hargs
    rw [evalArgs]
    refine (gives_eval h arg hargs.1 ctx hctx).bind fun value hvalue => ?_
    refine (gives_evalArgs h rest hargs.2 ctx hctx).bind fun values hvalues => .pure ⟨?_, ?_⟩
    · simp [meanings?, hvalue, hvalues.1]
    · rw [List.length_cons, List.length_cons, hvalues.2]

/-- A path has its meaning from any starts around the roots. -/
theorem gives_evalPath (h : Expected env fault onPath onCall) :
    ∀ p : Path Expr, Expr.EveryPath onPath onCall p →
    ∀ starts : List Item, (∀ x ∈ starts, x.Around env) → Gives fault (evalPath env p starts)
      fun value => pathMeaning env.doc env.roots p starts = value
  | ⟨absolute, steps⟩, hp, starts, hstarts => by
    rw [Expr.EveryPath] at hp
    rw [evalPath, pathMeaning]
    refine gives_evalSteps h steps hp.2 _ fun x hx => ?_
    split at hx
    · cases List.mem_singleton.1 hx
      trivial
    · exact hstarts x hx

/-- A union finds what one of its paths leads to. -/
theorem gives_evalPaths (h : Expected env fault onPath onCall) :
    ∀ paths : List (Path Expr), Expr.EveryPaths onPath onCall paths →
    ∀ starts : List Item, (∀ x ∈ starts, x.Around env) → Gives fault (evalPaths env paths starts)
      fun found => ∀ y, y ∈ found ↔ inSomePath env.doc env.roots paths starts y
  | [], _, starts, _ => by
    rw [evalPaths]
    exact .pure fun y => by simp [inSomePath]
  | p :: rest, hpaths, starts, hstarts => by
    rw [Expr.EveryPaths] at hpaths
    rw [evalPaths]
    refine (gives_evalPath h p hpaths.1 starts hstarts).bind fun value hvalue => ?_
    refine (gives_evalPaths h rest hpaths.2 starts hstarts).bind fun later hlater => ?_
    refine .pure fun y => ?_
    rw [List.mem_append, inSomePath, hvalue, hlater]

/-- Steps lead on from what the ones before have found. -/
theorem gives_evalSteps (h : Expected env fault onPath onCall) :
    ∀ steps : List (Step Expr), Expr.EverySteps onPath onCall steps →
    ∀ items : List Item, (∀ x ∈ items, x.Around env) → Gives fault (evalSteps env steps items)
      fun value => stepsMeaning env.doc env.roots steps items = value
  | [], _, items, _ => by
    rw [evalSteps]
    exact .pure (by rw [stepsMeaning])
  | ⟨axis, test, predicates⟩ :: rest, hsteps, items, hitems => by
    rw [Expr.EverySteps, Expr.EveryStep] at hsteps
    have hfound := (returns_evalStep h.sound ⟨axis, test, predicates⟩ hitems).and
      (gives_evalStep h.sound h.limit (gives_holdAll h predicates hsteps.1) hitems)
    -- after a step that selects elements the rest starts from what the step means
    have hnext : Gives fault (do
        let found ← evalStep env ⟨axis, test, predicates⟩ items
        evalSteps env rest (found.map Item.node)) fun value =>
          stepsMeaning env.doc env.roots rest ((nodesWith env.doc env.roots fun y =>
            ∃ x ∈ items, stepLeads env.doc env.roots ⟨axis, test, predicates⟩ x y).map
              Item.node) = value := by
      refine hfound.bind fun found hfound => ?_
      obtain ⟨hsub, rfl⟩ := hfound
      exact gives_evalSteps h rest hsteps.2 _ (around_of_mem_order h.sound hsub)
    cases test with
    | element name =>
      rw [evalSteps, stepsMeaning]
      exact hnext
    | any =>
      rw [evalSteps, stepsMeaning]
      exact hnext
    | _ =>
      rw [evalSteps, stepsMeaning]
      exact .pure rfl

/-- All predicates are looked at, or the first one that does not hold. -/
theorem gives_holdAll (h : Expected env fault onPath onCall) :
    ∀ predicates : List Expr, Expr.EveryList onPath onCall predicates →
    ∀ ctx : Context, env.Around ctx.node → Gives fault (holdAll env predicates ctx)
      fun kept => kept = true ↔ allHold env.doc env.roots predicates ctx
  | [], _, ctx, _ => by
    rw [holdAll]
    exact .pure (by simp [allHold])
  | predicate :: rest, hpredicates, ctx, hctx => by
    rw [Expr.EveryList] at hpredicates
    rw [holdAll]
    refine (gives_eval h predicate hpredicates.1 ctx hctx).bind fun value hvalue => ?_
    split
    · next htrue =>
      refine (gives_holdAll h rest hpredicates.2 ctx hctx).mono fun kept hkept => ?_
      simp [allHold, hvalue, htrue, hkept]
    · next hfalse => exact .pure (by simp [allHold, hvalue, hfalse])

end

/-! ## Chains -/

theorem allHold_iff {doc : Document} {roots : List NodeId} {predicates : List Expr}
    {ctx : Context} :
    allHold doc roots predicates ctx ↔ ∀ predicate ∈ predicates, Holds doc roots predicate ctx := by
  induction predicates with
  | nil => simp [allHold]
  | cons predicate rest ih => rw [allHold, ih, List.forall_mem_cons, Holds]

theorem stepLeads_iff {doc : Document} {roots : List NodeId} {s : Step Expr} {x : Item}
    {y : NodeId} :
    stepLeads doc roots s x y ↔ Candidate doc roots s.axis s.test x y ∧
      ∀ predicate ∈ s.predicates,
        Holds doc roots predicate (place doc roots s.axis s.test x y) := by
  obtain ⟨axis, test, predicates⟩ := s
  rw [stepLeads, allHold_iff]

theorem mem_nodesWith_iff (h : env.Sound) {P : NodeId → Prop} {y : NodeId} :
    y ∈ nodesWith env.doc env.roots P ↔ y ∈ env.order ∧ P y := by
  rw [nodesWith, ← h.order_eq, List.mem_filter]
  simp only [decide_eq_true_eq]

theorem mem_order_of_stepLeads (h : env.Sound) {s : Step Expr} {x : Item} (hx : x.Around env)
    {y : NodeId} (hy : stepLeads env.doc env.roots s x y) : y ∈ env.order := by
  obtain ⟨hreached, hpasses⟩ := (stepLeads_iff.1 hy).1
  exact h.mem_order_iff.2 ⟨isElement_of_passes hpasses, around_of_reached h hx hreached⟩

/-- Steps without a test of attributes mean the nodes at the ends of their chains. -/
theorem mem_stepsMeaning_iff (h : env.Sound) {steps : List (Step Expr)}
    (hsteps : ∀ s ∈ steps, s.test.isAttribute = false) {items : List Item}
    (hitems : ∀ x ∈ items, x.Around env) :
    ∃ ids, stepsMeaning env.doc env.roots steps items = .nodes ids ∧
      ∀ n, n ∈ ids ↔ ∃ x ∈ items, Chain env.doc env.roots steps x n := by
  induction steps generalizing items with
  | nil =>
    refine ⟨items.filterMap Item.node?, by rw [stepsMeaning], fun n => ?_⟩
    rw [List.mem_filterMap]
    constructor
    · rintro ⟨x, hx, hn⟩
      cases x with
      | document => cases hn
      | node id =>
        cases hn
        exact ⟨_, hx, .done n⟩
    · rintro ⟨x, hx, hn⟩
      cases hn
      exact ⟨_, hx, rfl⟩
  | cons s rest ih =>
    obtain ⟨hs, hrest⟩ := List.forall_mem_cons.1 hsteps
    -- the rest starts from the nodes that the first step leads to
    have haround : ∀ x ∈ (nodesWith env.doc env.roots fun y =>
        ∃ x ∈ items, stepLeads env.doc env.roots s x y).map Item.node, x.Around env := by
      intro x hx
      obtain ⟨y, hy, rfl⟩ := List.mem_map.1 hx
      exact (h.mem_order_iff.1 ((mem_nodesWith_iff h).1 hy).1).2
    obtain ⟨ids, hids, hmem⟩ := ih hrest haround
    refine ⟨ids, ?_, fun n => (hmem n).trans ?_⟩
    · rw [stepsMeaning]
      split
      · next htest =>
        rw [htest] at hs
        cases hs
      · exact hids
    · constructor
      · rintro ⟨z, hz, hn⟩
        obtain ⟨y, hy, rfl⟩ := List.mem_map.1 hz
        obtain ⟨-, x, hx, hxy⟩ := (mem_nodesWith_iff h).1 hy
        obtain ⟨hcandidate, hholds⟩ := stepLeads_iff.1 hxy
        exact ⟨x, hx, .step hcandidate hholds hn⟩
      · rintro ⟨x, hx, hn⟩
        cases hn with
        | @step _ _ _ y _ hcandidate hholds hn =>
          have hxy : stepLeads env.doc env.roots s x y := stepLeads_iff.2 ⟨hcandidate, hholds⟩
          have hy := (mem_nodesWith_iff h (P := fun y => ∃ x ∈ items,
            stepLeads env.doc env.roots s x y)).2
              ⟨mem_order_of_stepLeads h (hitems x hx) hxy, x, hx, hxy⟩
          exact ⟨.node y, List.mem_map_of_mem hy, hn⟩

/-! ## Paths that select nodes -/

/-- The path has a step, and no step but the last one tests attributes. -/
def Regular (p : Path Expr) : Prop :=
  p.steps ≠ [] ∧ ∀ s ∈ p.steps.dropLast, s.test.isAttribute = false

/-- The value is the set of nodes at the ends of the chains of a path, which begin at the document
or, for a relative path, at one of the starts. -/
def EndsOfChains (doc : Document) (roots : List NodeId) (p : Path Expr) (starts : List Item)
    (value : Value) : Prop :=
  ∃ ids, value = .nodes ids ∧ ∀ n, n ∈ ids ↔
    ∃ x ∈ (if p.absolute then [.document] else starts), Chain doc roots p.steps x n

/-- The error is that one of the calls is of no function. -/
def UnknownCall (onCall : String → Nat → Prop) (e : EvaluationError) : Prop :=
  ∃ name n, e = .unknownFunction name n ∧ onCall name n ∧ arity? name ≠ some n

theorem Regular.isAttribute_eq_false {p : Path Expr} (h : Regular p)
    (hnodes : p.endsInAttribute = false) : ∀ s ∈ p.steps, s.test.isAttribute = false := by
  intro s hs
  rw [← List.dropLast_append_getLast h.1, List.mem_append, List.mem_singleton] at hs
  rcases hs with hs | rfl
  · exact h.2 s hs
  · rw [Path.endsInAttribute, List.getLast?_eq_some_getLast h.1] at hnodes
    exact hnodes

/-- What a path that selects nodes evaluates to are the ends of its chains. -/
theorem gives_ends_of_chains (h : Expected env fault Regular onCall) {p : Path Expr}
    (hp : Expr.EveryPath Regular onCall p) (hnodes : p.endsInAttribute = false)
    {starts : List Item} (hstarts : ∀ x ∈ starts, x.Around env) :
    Gives fault (evalPath env p starts) (EndsOfChains env.doc env.roots p starts) := by
  refine (gives_evalPath h p hp starts hstarts).mono fun value hvalue => ?_
  obtain ⟨absolute, steps⟩ := p
  rw [Expr.EveryPath] at hp
  rw [pathMeaning] at hvalue
  have haround : ∀ x ∈ (if absolute then [.document] else starts), x.Around env := by
    intro x hx
    split at hx
    · cases List.mem_singleton.1 hx
      trivial
    · exact hstarts x hx
  obtain ⟨ids, hids, hmem⟩ :=
    mem_stepsMeaning_iff h.sound (hp.1.isAttribute_eq_false hnodes) haround
  exact ⟨ids, hvalue.symm.trans hids, hmem⟩

/-- Without a limit the one fault left is a call of an unknown function. -/
theorem expected_unknownCall (h : env.Sound) (hlimit : env.limit = none) :
    Expected env (UnknownCall onCall) Regular onCall where
  sound := h
  limit := by
    intro most hmost
    rw [hlimit] at hmost
    cases hmost
  path := fun p hp => hp.1
  call := by
    intro name n hn
    by_cases harity : arity? name = some n
    · exact .inl harity
    · exact .inr ⟨name, n, rfl, hn, harity⟩

/-- Over known roots of a reachable document and without a limit on visits, a path that selects
nodes yields the ends of its chains: from the roots, and inside a predicate from the node in
question. It fails only if it calls a function that there is not. -/
theorem nodes_iff_chain {doc : Document} {roots : List NodeId} {p : Path Expr}
    (hdoc : Reachable doc) (hroots : roots ≠ []) (hknown : ∀ r ∈ roots, r < doc.size)
    (hregular : (Expr.path p).Every Regular onCall) (hnodes : p.endsInAttribute = false) :
    Outcome (UnknownCall onCall) (EndsOfChains doc roots p (roots.map .node))
      (evaluateValue doc roots (.path p) none) ∧
    ∀ ctx : Context, (∃ r ∈ roots, doc.SameTree r ctx.node) →
      Gives (UnknownCall onCall) (eval (Setting.of doc roots none) (.path p) ctx)
        (EndsOfChains doc roots p [.node ctx.node]) := by
  have henv := Setting.Sound.of hdoc.wellFormed hknown none
  have hexpected : Expected (Setting.of doc roots none) (UnknownCall onCall) Regular onCall :=
    expected_unknownCall henv rfl
  rw [Expr.Every] at hregular
  constructor
  · obtain ⟨first, hfirst⟩ := Option.isSome_iff_exists.1 (List.isSome_head?.2 hroots)
    have hgives : Gives (UnknownCall onCall) (evalFrom (Setting.of doc roots none) first (.path p))
        (EndsOfChains doc roots p (roots.map .node)) := by
      refine gives_ends_of_chains hexpected hregular hnodes fun x hx => ?_
      obtain ⟨r, hr, rfl⟩ := List.mem_map.1 hx
      exact henv.around_of_mem hr
    rw [evaluateValue_eq hfirst hknown]
    exact hgives 0
  · intro ctx hctx
    rw [eval]
    exact gives_ends_of_chains hexpected hregular hnodes (around_singleton hctx)

/-- Below the document above two nested roots, the elements with a child are found. -/
theorem nodes_with_child :
    let inner : Expr := .path ⟨false, [⟨.child, .any, []⟩]⟩
    let steps : List (Step Expr) := [⟨.descendantOrSelf, .any, [inner]⟩]
    evaluateValue nest [1, 0] (.path ⟨true, steps⟩) none = .ok (.nodes [0, 1]) ∧
      ∀ n, n ∈ [0, 1] ↔ Chain nest [1, 0] steps .document n := by
  intro inner steps
  have hvalue : evaluateValue nest [1, 0] (.path ⟨true, steps⟩) none = .ok (.nodes [0, 1]) := by
    cbv
  have hreachable : Reachable nest := .edit _ (.edit _ (.withRoot (.named "a")))
  have hregular : (Expr.path ⟨true, steps⟩).Every Regular fun _ _ => False := by
    simp [steps, inner, Expr.Every, Expr.EveryPath, Expr.EverySteps, Expr.EveryStep,
      Expr.EveryList, Regular]
  have hends := (nodes_iff_chain hreachable (List.cons_ne_nil 1 [0]) (by decide +kernel) hregular
    rfl).1
  rw [hvalue] at hends
  obtain ⟨ids, hids, hmem⟩ : EndsOfChains _ _ _ _ _ := hends
  cases hids
  exact ⟨hvalue, fun n => (hmem n).trans (by simp)⟩

end MarkupPath.Evaluation
