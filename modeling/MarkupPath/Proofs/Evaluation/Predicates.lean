import MarkupPath.Proofs.Evaluation.Survivors

/-!
# Predicates form a boolean algebra

A parsed expression has a value at every node around the roots, and where that is no number a
predicate holds if it is true, wherever the node stands. So a predicate is decided by its `truth`,
and `and`, `or`, `not` and unions of paths are decided by the truths of their operands, although the
right operand may not be evaluated and a union is sorted. With what a path leaves to further
predicates this gives the laws of `predicates_boolean_algebra`.
-/

set_option autoImplicit false

namespace MarkupPath.Evaluation

open MarkupPath.Query MarkupPath.Tree Visiting

/-! ## Values -/

section Values

variable {env : Setting} {ctx : Context} {p q : Expr} {l r : Value}

/-- Without a limit a parsed expression has a value at every node around the roots. -/
theorem exists_yields_eval (henv : env.Sound) (hlimit : env.limit = none) {e : Expr}
    (he : Parsed e) (hctx : env.Around ctx.node) :
    ∃ value, Yields (eval env e ctx) value ∧ value.kind = kindOf e := by
  have hexpected : Expected env (fun _ => False) Regular KnownCall := expected_never henv hlimit
  have hgives :=
    (returns_eval_kind (onPath_of_every he) ctx).and (gives_eval hexpected e he ctx hctx)
  obtain ⟨value, -, -, hkind, hmeaning⟩ := hgives.exists_ok 0
  refine ⟨value, hgives.mono fun other hother => ?_, hkind⟩
  exact Option.some.inj (hother.2.symm.trans hmeaning)

theorem yields_and (hp : Yields (eval env p ctx) l) (hq : Yields (eval env q ctx) r) :
    Yields (eval env (.binary .and p q) ctx) (.boolean (l.toBool && r.toBool)) := by
  rw [eval]
  refine hp.bind ?_
  cases l.toBool with
  | true => exact hq.bind (.pure _)
  | false => exact .pure _

theorem yields_or (hp : Yields (eval env p ctx) l) (hq : Yields (eval env q ctx) r) :
    Yields (eval env (.binary .or p q) ctx) (.boolean (l.toBool || r.toBool)) := by
  rw [eval]
  refine hp.bind ?_
  cases l.toBool with
  | true => exact .pure _
  | false => exact hq.bind (.pure _)

theorem yields_not (hp : Yields (eval env p ctx) l) :
    Yields (eval env (.not p) ctx) (.boolean !l.toBool) := by
  rw [eval]
  exact hp.bind (.pure _)

/-- A union of two paths is true where one of them selects a node. -/
theorem yields_union {a b : Path Expr} {ids ids' : List NodeId}
    (ha : Yields (eval env (.path a) ctx) (.nodes ids))
    (hb : Yields (eval env (.path b) ctx) (.nodes ids')) :
    Yields (eval env (.union [a, b]) ctx) (.nodes (env.sorted (ids ++ (ids' ++ [])))) := by
  simp only [eval] at ha hb
  have hrest : Yields (evalPaths env [b] [.node ctx.node]) (ids' ++ []) := by
    rw [evalPaths, evalPaths]
    exact hb.bind ((Yields.pure []).bind (.pure _))
  rw [eval, evalPaths]
  refine Yields.bind (a := ids ++ (ids' ++ [])) ?_ (.pure _)
  refine ha.bind ?_
  refine hrest.bind ?_
  exact .pure _

theorem isEmpty_sorted (env : Setting) (ids : List NodeId) :
    (env.sorted ids).isEmpty = ids.isEmpty := by
  rw [Bool.eq_iff_iff, List.isEmpty_iff, List.isEmpty_iff, List.eq_nil_iff_forall_not_mem,
    List.eq_nil_iff_forall_not_mem]
  exact forall_congr' fun id => not_congr mem_inOrder

end Values

/-! ## Truth -/

section Truth

variable (env : Setting)

/-- The truth of an expression at a node. -/
def truth (e : Expr) (ctx : Context) : Bool :=
  match (eval env e ctx).run' 0 with
  | .ok value => value.toBool
  | .error _ => false

variable {env}

theorem truth_eq {e : Expr} {ctx : Context} {value : Value} (h : Yields (eval env e ctx) value) :
    truth env e ctx = value.toBool := by
  rw [truth, h.run'_eq]

/-- A value that is no number holds as a predicate where it is true, whatever the position. -/
theorem holdsAt_eq_toBool {value : Value} (h : value.kind ≠ .number) (position : Nat) :
    holdsAt position value = value.toBool := by
  cases value with
  | number x => exact absurd rfl h
  | _ => rfl

/-- At every node around the roots the expression has a value, which is no number. -/
def TruthValued (env : Setting) (e : Expr) : Prop :=
  ∀ ctx : Context, env.Around ctx.node →
    ∃ value, Yields (eval env e ctx) value ∧ value.kind ≠ .number

theorem truthValued_of_parsed (henv : env.Sound) (hlimit : env.limit = none) {e : Expr}
    (he : Parsed e) (hkind : kindOf e ≠ .number) : TruthValued env e := by
  intro ctx hctx
  obtain ⟨value, hvalue, hvalueKind⟩ := exists_yields_eval henv hlimit he hctx
  exact ⟨value, hvalue, hvalueKind ▸ hkind⟩

/-- Predicates that have truth values are decided by them. -/
theorem decides_of_truthValued {predicates : List Expr}
    (h : ∀ e ∈ predicates, TruthValued env e) :
    Decides env predicates fun ctx => predicates.all fun e => truth env e ctx := by
  intro ctx hctx
  induction predicates with
  | nil => exact yields_holdAll_nil
  | cons e rest ih =>
    obtain ⟨he, hrest⟩ := List.forall_mem_cons.1 h
    obtain ⟨value, hvalue, hkind⟩ := he ctx hctx
    have hholds := yields_holdAll_cons hvalue (ih hrest)
    rwa [holdsAt_eq_toBool hkind, ← truth_eq hvalue] at hholds

end Truth

/-! ## Operators -/

section Operators

variable {env : Setting} {p q : Expr}

/-- A boolean value decides a predicate. -/
theorem decides_of_boolean {verdict : Context → Bool} (h : ∀ ctx : Context, env.Around ctx.node →
    Yields (eval env p ctx) (.boolean (verdict ctx))) : Decides env [p] verdict := by
  intro ctx hctx
  have hholds := yields_holdAll_cons (h ctx hctx) yields_holdAll_nil
  rwa [Bool.and_true] at hholds

namespace TruthValued

theorem decides (hp : TruthValued env p) : Decides env [p] (truth env p) := by
  have hdecides := decides_of_truthValued (List.forall_mem_singleton.2 hp)
  simpa using hdecides

theorem decides_pair (hp : TruthValued env p) (hq : TruthValued env q) :
    Decides env [p, q] fun ctx => truth env p ctx && truth env q ctx := by
  have hdecides := decides_of_truthValued
    (List.forall_mem_cons.2 ⟨hp, List.forall_mem_singleton.2 hq⟩)
  simpa using hdecides

theorem decides_and (hp : TruthValued env p) (hq : TruthValued env q) :
    Decides env [.binary .and p q] fun ctx => truth env p ctx && truth env q ctx := by
  refine decides_of_boolean fun ctx hctx => ?_
  obtain ⟨l, hl, -⟩ := hp ctx hctx
  obtain ⟨r, hr, -⟩ := hq ctx hctx
  rw [truth_eq hl, truth_eq hr]
  exact yields_and hl hr

theorem decides_or (hp : TruthValued env p) (hq : TruthValued env q) :
    Decides env [.binary .or p q] fun ctx => truth env p ctx || truth env q ctx := by
  refine decides_of_boolean fun ctx hctx => ?_
  obtain ⟨l, hl, -⟩ := hp ctx hctx
  obtain ⟨r, hr, -⟩ := hq ctx hctx
  rw [truth_eq hl, truth_eq hr]
  exact yields_or hl hr

theorem decides_not (hp : TruthValued env p) :
    Decides env [.not p] fun ctx => !truth env p ctx := by
  refine decides_of_boolean fun ctx hctx => ?_
  obtain ⟨l, hl, -⟩ := hp ctx hctx
  rw [truth_eq hl]
  exact yields_not hl

theorem decides_not_not (hp : TruthValued env p) :
    Decides env [.not (.not p)] (truth env p) := by
  refine decides_of_boolean fun ctx hctx => ?_
  obtain ⟨l, hl, -⟩ := hp ctx hctx
  have hnot := yields_not (yields_not hl)
  rwa [Value.toBool, Bool.not_not, ← truth_eq hl] at hnot

end TruthValued

/-- A union of two paths that select nodes holds where one of the paths does. -/
theorem decides_union (henv : env.Sound) (hlimit : env.limit = none) {a b : Path Expr}
    (ha : Parsed (.path a)) (hb : Parsed (.path b)) (hanodes : a.endsInAttribute = false)
    (hbnodes : b.endsInAttribute = false) :
    Decides env [.union [a, b]] fun ctx => truth env (.path a) ctx || truth env (.path b) ctx := by
  have hnodes : ∀ {c : Path Expr}, Parsed (.path c) → c.endsInAttribute = false →
      ∀ ctx : Context, env.Around ctx.node →
        ∃ ids, Yields (eval env (.path c) ctx) (.nodes ids) := by
    intro c hc hcnodes ctx hctx
    obtain ⟨value, hvalue, hkind⟩ := exists_yields_eval henv hlimit hc hctx
    rw [kindOf, pathKind, hcnodes] at hkind
    cases value with
    | nodes ids => exact ⟨ids, hvalue⟩
    | _ => cases hkind
  intro ctx hctx
  obtain ⟨ids, hids⟩ := hnodes ha hanodes ctx hctx
  obtain ⟨ids', hids'⟩ := hnodes hb hbnodes ctx hctx
  have hholds := yields_holdAll_cons (yields_union hids hids') yields_holdAll_nil
  have hverdict : (holdsAt ctx.position (.nodes (env.sorted (ids ++ (ids' ++ [])))) && true) =
      (truth env (.path a) ctx || truth env (.path b) ctx) := by
    rw [holdsAt_eq_toBool (by simp [Value.kind]), Value.toBool, isEmpty_sorted, truth_eq hids,
      truth_eq hids', Value.toBool, Value.toBool]
    cases ids <;> cases ids' <;> rfl
  rw [hverdict] at hholds
  exact hholds

end Operators

/-! ## The laws -/

/-- The one selection has the nodes of both others, or all three have the same fault. -/
def Joined (both one other : Except EvaluationError (List NodeId)) : Prop :=
  (∃ e, both = .error e ∧ one = .error e ∧ other = .error e) ∨
    ∃ ids ids₁ ids₂, both = .ok ids ∧ one = .ok ids₁ ∧ other = .ok ids₂ ∧
      ∀ n, n ∈ ids ↔ n ∈ ids₁ ∨ n ∈ ids₂

/-- The members of a list that are marked. -/
def marked : List Bool → List NodeId → List NodeId
  | mark :: marks, id :: rest => if mark then id :: marked marks rest else marked marks rest
  | _, _ => []

theorem map_node_filter_eq_marked (verdict : Context → Bool) (contexts : List Context) :
    (contexts.filter verdict).map Context.node =
      marked (contexts.map verdict) (contexts.map Context.node) := by
  induction contexts with
  | nil => rfl
  | cons ctx rest ih =>
    rw [List.filter_cons, List.map_cons, List.map_cons, marked, ← ih]
    split <;> rfl

theorem mem_merge_chosen {env : Setting} {groups : List (List Context)} {verdict : Context → Bool}
    {n : NodeId} :
    n ∈ merge env (groups.map (chosen verdict)) ↔
      ∃ group ∈ groups, ∃ ctx ∈ group, verdict ctx = true ∧ ctx.node = n := by
  simp [mem_merge, chosen, and_assoc]

/-- A disjunction of verdicts chooses what one of them does. -/
theorem joined_merge_chosen (env : Setting)
    (result : Except EvaluationError (List (List Context))) (verdict verdict' : Context → Bool) :
    Joined
      (result.map fun groups =>
        merge env (groups.map (chosen fun ctx => verdict ctx || verdict' ctx)))
      (result.map fun groups => merge env (groups.map (chosen verdict)))
      (result.map fun groups => merge env (groups.map (chosen verdict'))) := by
  cases result with
  | error e => exact .inl ⟨e, rfl, rfl, rfl⟩
  | ok groups =>
    refine .inr ⟨_, _, _, rfl, rfl, rfl, fun n => ?_⟩
    simp only [mem_merge_chosen, Bool.or_eq_true, or_and_right, and_or_left, exists_or]

/-- A filter by a predicate that is decided marks the nodes by its verdict at their places. -/
theorem filterNodes_eq_marked {doc : Document} {roots ids : List NodeId} {predicate : Expr}
    {verdict : Context → Bool} (henv : (Setting.of doc roots none).Sound)
    (hknown : ∀ r ∈ roots, r < doc.size)
    (hids : ∀ id ∈ ids, (Setting.of doc roots none).Around id)
    (hpredicate : Decides (Setting.of doc roots none) [predicate] verdict) :
    filterNodes doc roots ids predicate =
      .ok (marked ((places ids.length 1 ids).map verdict) ids) := by
  rw [filterNodes_eq hknown (fun id hid => henv.lt_size_of_around (hids id hid))
    (fun ctx hctx => hpredicate ctx (hids _ hctx)), map_node_filter_eq_marked, map_node_places]

/-- Predicates whose values are no numbers form a boolean algebra at the last step of any path: one
after the other, in either order, they select what their conjunction does, a disjunction selects
what one of them does, a double negation changes nothing, and a union of paths is their disjunction.
Where the path itself is parsed, all of these select. A filter of nodes around the roots keeps the
nodes at some positions, and the negated predicate those at the others. -/
theorem predicates_boolean_algebra {doc : Document} {roots : List NodeId} (hdoc : Reachable doc)
    (hroots : roots ≠ []) (hknown : ∀ r ∈ roots, r < doc.size) (absolute : Bool)
    (before : List (Step Expr)) {last : Step Expr} (hlast : last.test.isAttribute = false)
    {p q : Expr} (hp : Parsed p) (hq : Parsed q) (hpkind : kindOf p ≠ .number)
    (hqkind : kindOf q ≠ .number) :
    let select : List Expr → Except EvaluationError (List NodeId) := fun further =>
      evaluate doc roots (.path (furtherPath absolute before last further)) none
    select [p, q] = select [.binary .and p q] ∧ select [q, p] = select [.binary .and p q] ∧
      Joined (select [.binary .or p q]) (select [p]) (select [q]) ∧
      select [.not (.not p)] = select [p] ∧
      (∀ a b : Path Expr, Parsed (.path a) → Parsed (.path b) → a.endsInAttribute = false →
        b.endsInAttribute = false →
          select [.union [a, b]] = select [.binary .or (.path a) (.path b)]) ∧
      (Parsed (.path ⟨absolute, before ++ [last]⟩) →
        ∀ e ∈ [p, q, .binary .and p q, .binary .or p q], ∃ ids, select [e] = .ok ids) ∧
      ∀ ids : List NodeId, (∀ id ∈ ids, ∃ r ∈ roots, doc.SameTree r id) →
        ∃ marks : List Bool, marks.length = ids.length ∧
          filterNodes doc roots ids p = .ok (marked marks ids) ∧
          filterNodes doc roots ids (.not p) = .ok (marked (marks.map (!·)) ids) := by
  intro select
  have hwf := hdoc.wellFormed
  have henv := Setting.Sound.of hwf hknown none
  have hpTruth := truthValued_of_parsed henv rfl hp hpkind
  have hqTruth := truthValued_of_parsed henv rfl hq hqkind
  obtain ⟨result, hselect⟩ := exists_survivors hwf hroots hknown absolute before hlast
  have hand := hselect _ _ (hpTruth.decides_and hqTruth)
  have hor := hselect _ _ (hpTruth.decides_or hqTruth)
  have hp' := hselect _ _ hpTruth.decides
  have hq' := hselect _ _ hqTruth.decides
  refine ⟨?_, ?_, ?_, ?_, ?_, ?_, ?_⟩
  · exact (hselect _ _ (hpTruth.decides_pair hqTruth)).trans hand.symm
  · have hswap := hselect _ _ (hqTruth.decides_pair hpTruth)
    simp only [Bool.and_comm] at hswap hand
    exact hswap.trans hand.symm
  · simp only [select, hor, hp', hq']
    exact joined_merge_chosen _ result _ _
  · exact (hselect _ _ hpTruth.decides_not_not).trans hp'.symm
  · intro a b ha hb hanodes hbnodes
    have haTruth := truthValued_of_parsed henv rfl ha (by simp [kindOf, pathKind, hanodes])
    have hbTruth := truthValued_of_parsed henv rfl hb (by simp [kindOf, pathKind, hbnodes])
    exact (hselect _ _ (decides_union henv rfl ha hb hanodes hbnodes)).trans
      (hselect _ _ (haTruth.decides_or hbTruth)).symm
  · intro hpath
    -- the path alone selects, so it does not come to a fault
    have hnodes : Path.endsInAttribute ⟨absolute, before ++ [last]⟩ = false := by
      rw [Path.endsInAttribute, List.getLast?_concat]
      exact hlast
    obtain ⟨ids, hids⟩ := exists_nodes_of_parsed hwf hroots hknown hpath hnodes
    have hplain := hselect [] _ (decides_of_truthValued (List.forall_mem_nil _))
    rw [furtherPath, furtherStep, List.append_nil, evaluate_of_evaluateValue hids] at hplain
    cases result with
    | error e => cases hplain
    | ok groups =>
      have hall : ∀ {e : Expr} {verdict : Context → Bool}, Decides _ [e] verdict →
          ∃ ids, select [e] = .ok ids := fun hdecides => ⟨_, hselect _ _ hdecides⟩
      simp only [List.forall_mem_cons]
      exact ⟨hall hpTruth.decides, hall hqTruth.decides, hall (hpTruth.decides_and hqTruth),
        hall (hpTruth.decides_or hqTruth), List.forall_mem_nil _⟩
  · intro ids hids
    refine ⟨(places ids.length 1 ids).map (truth (Setting.of doc roots none) p), ?_,
      filterNodes_eq_marked henv hknown hids hpTruth.decides, ?_⟩
    · rw [List.length_map, length_places]
    · rw [filterNodes_eq_marked henv hknown hids hpTruth.decides_not, List.map_map]
      rfl

/-- Of a chain of three elements, those with a child and those at the second place. -/
theorem predicates_of_nest :
    let p : Expr := .path ⟨false, [⟨.child, .any, []⟩]⟩
    let q : Expr := .binary (.compare .equal) (.call "position" []) (.number 2.0)
    let select : List Expr → Except EvaluationError (List NodeId) := fun further =>
      evaluate nest [0] (.path (furtherPath true [] ⟨.descendantOrSelf, .any, []⟩ further)) none
    select [p, q] = .ok [1] ∧ select [q, p] = .ok [1] ∧
      Joined (select [.binary .or p q]) (select [p]) (select [q]) ∧
      ∃ marks : List Bool, marks.length = 3 ∧
        filterNodes nest [0] [2, 0, 1] p = .ok (marked marks [2, 0, 1]) ∧
        filterNodes nest [0] [2, 0, 1] (.not p) = .ok (marked (marks.map (!·)) [2, 0, 1]) := by
  intro p q select
  have hreachable : Reachable nest := .edit _ (.edit _ (.withRoot (.named "a")))
  have hp : Parsed p := by
    simp [p, Expr.Every, Expr.EveryPath, Expr.EverySteps, Expr.EveryStep, Expr.EveryList, Regular]
  have hq : Parsed q := by
    simp [q, Expr.Every, Expr.EveryList, KnownCall, arity?, functions]
  have hlast : (⟨.descendantOrSelf, .any, []⟩ : Step Expr).test.isAttribute = false := rfl
  obtain ⟨hpair, hswapped, hor, -, -, -, hfilter⟩ := predicates_boolean_algebra hreachable
    (List.cons_ne_nil 0 []) (by decide +kernel) true [] hlast hp hq (by decide) (by decide)
  have hand : select [.binary .and p q] = .ok [1] := by cbv
  have htop : ∀ id ∈ [2, 0, 1], nest.top 0 = nest.top id := by decide +kernel
  exact ⟨hpair.trans hand, hswapped.trans hand, hor, hfilter [2, 0, 1] fun id hid =>
    ⟨0, List.mem_singleton_self 0, hreachable.wellFormed.sameTree_iff.2 (htop id hid)⟩⟩

end MarkupPath.Evaluation
