import MarkupPath.Proofs.Evaluation.DocumentOrder
import MarkupPath.Proofs.Evaluation.TwoRuns

/-!
# Evaluation in matching settings

An evaluation learns about its setting only through a few questions: where an axis leads from a
node, whether a node passes a test, what its name, text and attributes are, and which of some nodes
comes first. Two settings are `Matching` along a renaming of nodes if they answer these questions
alike for all nodes in a region that no axis leaves. Then an expression evaluated in the second
setting mirrors its evaluation in the first one (`mirrors_eval`, `mirrors_evalFrom`): positions,
order, repetitions and faults agree, and a node set is renamed member by member.

Absolute paths ask about the document above the roots as well, which `MatchingDocument` covers; it
is required only of expressions that have such paths.
-/

set_option autoImplicit false

namespace MarkupPath.Evaluation

open MarkupPath.Query MarkupPath.Tree Visiting

/-! ## Renaming -/

/-- The item with its node renamed. -/
def Item.rename (f : NodeId → NodeId) : Item → Item
  | .document => .document
  | .node id => .node (f id)

/-- The context with its node renamed. -/
def Context.rename (f : NodeId → NodeId) (ctx : Context) : Context :=
  { ctx with node := f ctx.node }

/-- The value with the members of a node set renamed. -/
def Value.rename (f : NodeId → NodeId) : Value → Value
  | .nodes ids => .nodes (ids.map f)
  | value => value

/-- Every node of the value, if it is a node set, lies in a region. -/
def Value.Inside (near : NodeId → Prop) (value : Value) : Prop :=
  ∀ ids, value = .nodes ids → ∀ id ∈ ids, near id

section Renaming

variable {near : NodeId → Prop} {f : NodeId → NodeId}

theorem Value.inside_of_nodes?_eq_none {value : Value} (h : value.nodes? = none) :
    value.Inside near := by
  rintro ids rfl
  cases h

theorem Value.inside_nodes {ids : List NodeId} (h : ∀ id ∈ ids, near id) :
    (Value.nodes ids).Inside near := by
  rintro _ ⟨⟩
  exact h

theorem Value.rename_of_nodes?_eq_none {value : Value} (h : value.nodes? = none) :
    value.rename f = value := by
  cases value with
  | nodes ids => cases h
  | _ => rfl

@[simp] theorem Value.rename_id (value : Value) : value.rename id = value := by
  cases value with
  | nodes ids => rw [Value.rename, List.map_id]
  | _ => rfl

theorem Value.map_rename_id (result : Except EvaluationError Value) :
    result.map (Value.rename id) = result := by
  cases result with
  | ok value => exact congrArg Except.ok value.rename_id
  | error fault => rfl

@[simp] theorem Value.toBool_rename (value : Value) : (value.rename f).toBool = value.toBool := by
  cases value with
  | nodes ids => simp [Value.rename, Value.toBool]
  | _ => rfl

theorem Value.nodes?_rename (value : Value) :
    (value.rename f).nodes?.getD [] = (value.nodes?.getD []).map f := by
  cases value <;> rfl

@[simp] theorem holdsAt_rename (position : Nat) (value : Value) :
    holdsAt position (value.rename f) = holdsAt position value := by
  cases value with
  | nodes ids => exact Value.toBool_rename (f := f) (.nodes ids)
  | _ => rfl

theorem Item.filterMap_node?_rename (items : List Item) :
    (items.map (Item.rename f)).filterMap Item.node? = (items.filterMap Item.node?).map f := by
  rw [List.filterMap_map, List.map_filterMap]
  congr 1
  funext x
  cases x <;> rfl

theorem Item.map_node_rename (ids : List NodeId) :
    (ids.map Item.node).map (Item.rename f) = (ids.map f).map Item.node := by
  rw [List.map_map, List.map_map]
  rfl

end Renaming

/-! ## Order -/

theorem mem_inOrder {order ids : List NodeId} {id : NodeId} :
    id ∈ inOrder order ids ↔ id ∈ ids := by
  simp only [inOrder, mem_dropRepeats, List.mem_map, List.mem_mergeSort]
  constructor
  · rintro ⟨_, ⟨x, hx, rfl⟩, rfl⟩
    exact hx
  · exact fun hid => ⟨_, ⟨id, hid, rfl⟩, rfl⟩

/-- Merging neither adds nor loses a node. -/
theorem mem_merge {env : Setting} {groups : List (List NodeId)} {id : NodeId} :
    id ∈ merge env groups ↔ ∃ group ∈ groups, id ∈ group := by
  rw [merge]
  split
  · rw [Setting.sorted, mem_inOrder, List.mem_flatten]
  · exact List.mem_flatten

/-! ## Matching settings -/

/-- Two settings answer the questions of an evaluation alike for the nodes of a region, with those
of the second one renamed. -/
structure Matching (counts : Nat → Nat → Prop) (f : NodeId → NodeId) (near : NodeId → Prop)
    (env env' : Setting) : Prop where
  mirrors_visit : ∀ count, Mirrors counts (visit env count) (visit env' count) id fun _ => True
  near_navigate : ∀ {axis : Axis} {id y : NodeId}, near id →
    y ∈ navigate env.doc env.roots axis (.node id) → near y
  navigate_eq : ∀ {id : NodeId} (axis : Axis), near id →
    navigate env'.doc env'.roots axis (.node (f id)) =
      (navigate env.doc env.roots axis (.node id)).map f
  passes_eq : ∀ {id : NodeId} (test : NodeTest), near id →
    passes env'.doc test (f id) = passes env.doc test id
  name?_eq : ∀ {id : NodeId}, near id → env'.doc.name? (f id) = env.doc.name? id
  text?_eq : ∀ {id : NodeId}, near id → env'.doc.text? (f id) = env.doc.text? id
  attributes_eq : ∀ {id : NodeId}, near id → env'.doc.attributes (f id) = env.doc.attributes id
  sorted_eq : ∀ {ids : List NodeId}, (∀ id ∈ ids, near id) →
    env'.sorted (ids.map f) = (env.sorted ids).map f

/-- Without limits the settings of one document match on a region that no axis leaves, if they sort
its nodes alike. -/
theorem Matching.of_sorted_eq {doc : Document} {roots roots' : List NodeId} {near : NodeId → Prop}
    (hnear : ∀ {axis : Axis} {n y : NodeId}, near n →
      y ∈ navigate doc roots axis (.node n) → near y)
    (hsorted : ∀ {ids : List NodeId}, (∀ id ∈ ids, near id) →
      (Setting.of doc roots' none).sorted ids = (Setting.of doc roots none).sorted ids) :
    Matching (fun _ _ => True) id near (Setting.of doc roots none)
      (Setting.of doc roots' none) where
  mirrors_visit := mirrors_visit_of_unlimited rfl rfl
  near_navigate := hnear
  navigate_eq := by
    intro n axis _
    rw [List.map_id]
    exact navigate_node doc roots' roots axis n
  passes_eq := fun _ _ => rfl
  name?_eq := fun _ => rfl
  text?_eq := fun _ => rfl
  attributes_eq := fun _ => rfl
  sorted_eq := by
    intro ids hids
    rw [List.map_id, List.map_id]
    exact hsorted hids

/-- The settings answer alike at the document above their roots. -/
def MatchingDocument (counts : Nat → Nat → Prop) (f : NodeId → NodeId) (near : NodeId → Prop)
    (env env' : Setting) : Prop :=
  ∀ axis test, Mirrors counts (candidates env axis test .document)
    (candidates env' axis test .document) (List.map f) fun found => ∀ id ∈ found, near id

variable {counts : Nat → Nat → Prop} {f : NodeId → NodeId} {near : NodeId → Prop}
  {env env' : Setting}

/-- The item is a node of the region, or the document if that matches. -/
def Item.Near (counts : Nat → Nat → Prop) (f : NodeId → NodeId) (near : NodeId → Prop)
    (env env' : Setting) : Item → Prop
  | .document => MatchingDocument counts f near env env'
  | .node id => near id

/-- Nodes among items that are near are near. -/
theorem near_of_mem_filterMap {items : List Item}
    (hitems : ∀ x ∈ items, x.Near counts f near env env') :
    ∀ id ∈ items.filterMap Item.node?, near id := by
  intro id hid
  obtain ⟨x, hx, hnode⟩ := List.mem_filterMap.1 hid
  cases x with
  | document => cases hnode
  | node y =>
    cases hnode
    exact hitems _ hx

theorem near_of_mem_map {ids : List NodeId} (hids : ∀ id ∈ ids, near id) :
    ∀ x ∈ ids.map Item.node, x.Near counts f near env env' := by
  intro x hx
  obtain ⟨id, hid, rfl⟩ := List.mem_map.1 hx
  exact hids id hid

theorem near_singleton {id : NodeId} (hid : near id) :
    ∀ x ∈ [Item.node id], x.Near counts f near env env' := by
  intro x hx
  cases List.mem_singleton.1 hx
  exact hid

namespace Matching

section

variable (h : Matching counts f near env env')

include h

/-! ## Values -/

/-- The first node of a value in document order is renamed with it. -/
theorem first?_rename {value : Value} (hvalue : value.Inside near) :
    (value.rename f).first? env'.doc = value.first? env.doc := by
  cases value with
  | nodes ids =>
    cases ids with
    | nil => rfl
    | cons id rest =>
      have hid : near id := hvalue _ rfl id List.mem_cons_self
      simp [Value.rename, Value.first?, h.text?_eq hid]
  | _ => rfl

theorem toText_rename {value : Value} (hvalue : value.Inside near) :
    (value.rename f).toText env'.doc = value.toText env.doc := by
  rw [Value.toText, Value.toText, h.first?_rename hvalue]

theorem toFloat_rename {value : Value} (hvalue : value.Inside near) :
    (value.rename f).toFloat env'.doc = value.toFloat env.doc := by
  have hfirst := h.first?_rename hvalue
  cases value with
  | nodes ids =>
    simp only [Value.rename, Value.toFloat] at hfirst ⊢
    rw [hfirst]
  | _ => rfl

theorem operand_rename {value : Value} (hvalue : value.Inside near) :
    Operand.of? env'.doc (value.rename f) = Operand.of? env.doc value := by
  have hfirst := h.first?_rename hvalue
  cases value with
  | nodes ids =>
    simp only [Value.rename, Operand.of?] at hfirst ⊢
    rw [hfirst]
  | _ => rfl

theorem compareValues_rename (op : CompareOp) {l r : Value} (hl : l.Inside near)
    (hr : r.Inside near) :
    compareValues env'.doc op (l.rename f) (r.rename f) = compareValues env.doc op l r := by
  have hleft := h.operand_rename hl
  have hright := h.operand_rename hr
  have hlb := Value.toBool_rename (f := f) l
  have hrb := Value.toBool_rename (f := f) r
  -- which of the three cases applies does not change, since only a boolean decides it
  cases l <;> cases r <;> simp_all only [Value.rename, compareValues]

theorem attributeValues_map (test : NameTest) {ids : List NodeId} (hids : ∀ id ∈ ids, near id) :
    attributeValues env'.doc test (ids.map f) = attributeValues env.doc test ids := by
  simp only [attributeValues, List.flatMap_map]
  refine List.flatMap_congr fun id hid => ?_
  rw [h.attributes_eq (hids id hid)]

/-- A call gives the same value, or the same fault. -/
theorem call_rename {ctx : Context} (hctx : near ctx.node) (name : String) {args : List Value}
    (hargs : ∀ value ∈ args, value.Inside near) :
    call env'.doc (ctx.rename f) name (args.map (Value.rename f)) =
      call env.doc ctx name args := by
  fun_cases call env.doc ctx name args with
  | case1 => rfl
  | case2 => rfl
  | case3 => simp [call, Context.rename, h.text?_eq hctx]
  | case4 => simp [call, Context.rename, h.name?_eq hctx]
  | case5 arg => simp [call]
  | case6 whole part =>
    have hwhole := h.toText_rename (hargs whole (by simp))
    have hpart := h.toText_rename (hargs part (by simp))
    simp [call, hwhole, hpart]
  | case7 name args hposition hlast htext hname hnot hcontains =>
    -- renaming does not change how many arguments there are
    unfold call
    split <;> simp_all [List.map_eq_cons_iff]

/-! ## Steps -/

/-- Groups of nodes are merged and sorted alike on both sides. -/
theorem merge_map {groups : List (List NodeId)}
    (hgroups : ∀ group ∈ groups, ∀ id ∈ group, near id) :
    merge env' (groups.map (List.map f)) = (merge env groups).map f := by
  have hflat : ∀ id ∈ groups.flatten, near id := by
    intro id hid
    obtain ⟨group, hgroup, hid⟩ := List.mem_flatten.1 hid
    exact hgroups group hgroup id hid
  have hcount : ((groups.map (List.map f)).filter fun group => !group.isEmpty).length =
      (groups.filter fun group => !group.isEmpty).length := by
    rw [List.filter_map, List.length_map]
    congr 2
    funext group
    simp
  rw [merge, merge, hcount, ← List.map_flatten, h.sorted_eq hflat]
  split <;> rfl

theorem filter_passes_map (test : NodeTest) {ids : List NodeId} (hids : ∀ id ∈ ids, near id) :
    (ids.map f).filter (passes env'.doc test) = (ids.filter (passes env.doc test)).map f := by
  rw [List.filter_map]
  exact congrArg (List.map f) (List.filter_congr fun id hid => h.passes_eq test (hids id hid))

/-- Where the axes of the document lead to corresponding nodes, the settings match at it. -/
theorem matchingDocument (hroots : env'.roots.length = env.roots.length)
    (hnear : ∀ axis, ∀ y ∈ navigate env.doc env.roots axis .document, near y)
    (hnavigate : ∀ axis, navigate env'.doc env'.roots axis .document =
      (navigate env.doc env.roots axis .document).map f) :
    MatchingDocument counts f near env env' := by
  intro axis test
  have hadmitted : ∀ y ∈ (navigate env.doc env.roots axis .document).filter
      (passes env.doc test), near y := fun y hy => hnear axis y (List.mem_of_mem_filter hy)
  rw [candidates, candidates, hnavigate, List.length_map, h.filter_passes_map test (hnear axis),
    hroots]
  refine (h.mirrors_visit _).bind fun _ _ => ?_
  dsimp only
  rw [h.sorted_eq hadmitted]
  split
  · exact .pure fun y hy => hadmitted y (mem_inOrder.1 hy)
  · exact .pure hadmitted

/-- What an axis leads to from a renamed item is what it leads to from the item, renamed. -/
theorem mirrors_candidates (axis : Axis) (test : NodeTest) {x : Item}
    (hx : x.Near counts f near env env') :
    Mirrors counts (candidates env axis test x) (candidates env' axis test (x.rename f))
      (List.map f) fun found => ∀ id ∈ found, near id := by
  cases x with
  | document => exact hx axis test
  | node id =>
    have hfound : ∀ y ∈ navigate env.doc env.roots axis (.node id), near y :=
      fun y hy => h.near_navigate hx hy
    rw [candidates, candidates, Item.rename, h.navigate_eq axis hx, List.length_map,
      h.filter_passes_map test hfound]
    refine (h.mirrors_visit _).bind fun _ _ => ?_
    exact .pure fun y hy => hfound y (List.mem_of_mem_filter hy)

omit h in
/-- What tests that mirror each other keep is renamed member by member. -/
theorem mirrors_keep {test test' : Context → Visiting Bool} (size position : Nat)
    {ids : List NodeId} (hids : ∀ id ∈ ids, near id)
    (htest : ∀ ctx : Context, near ctx.node →
      Mirrors counts (test ctx) (test' (ctx.rename f)) id fun _ => True) :
    Mirrors counts (keep test size position ids) (keep test' size position (ids.map f))
      (List.map f) fun kept => ∀ id ∈ kept, near id := by
  induction ids generalizing position with
  | nil => exact .pure fun _ => (nomatch ·)
  | cons id rest ih =>
    obtain ⟨hid, hrest⟩ := List.forall_mem_cons.1 hids
    refine (htest ⟨id, position, size⟩ hid).bind fun kept _ => ?_
    refine (ih (position + 1) hrest).bind fun later hlater => ?_
    cases kept with
    | true => exact .pure (φ := List.map f) (List.forall_mem_cons.2 ⟨hid, hlater⟩)
    | false => exact .pure hlater

end

/-! ## Expressions -/

variable {onPath : Path Expr → Prop} {onCall : String → Nat → Prop}

mutual

/-- An expression evaluated in the second setting mirrors its evaluation in the first one. -/
theorem mirrors_eval (h : Matching counts f near env env')
    (habsolute : ∀ p, onPath p → p.absolute = true → MatchingDocument counts f near env env') :
    ∀ e : Expr, e.Every onPath onCall → ∀ ctx : Context, near ctx.node →
    Mirrors counts (eval env e ctx) (eval env' e (ctx.rename f)) (Value.rename f)
      (Value.Inside near)
  | .path p, he, ctx, hctx => by
    rw [Expr.Every] at he
    rw [eval, eval]
    exact mirrors_evalPath h habsolute p he (near_singleton hctx)
  | .union paths, he, ctx, hctx => by
    rw [Expr.Every] at he
    rw [eval, eval]
    refine (mirrors_evalPaths h habsolute paths he (near_singleton hctx)).bind
      fun found hfound => ?_
    rw [h.sorted_eq hfound]
    exact .pure (Value.inside_nodes fun id hid => hfound id (mem_inOrder.1 hid))
  | .attribute test, _, ctx, hctx => by
    have hself : ∀ id ∈ [ctx.node], near id := by simpa using hctx
    have hvalues := h.attributeValues_map test hself
    rw [List.map_singleton] at hvalues
    rw [eval, eval, Context.rename, hvalues]
    exact .pure (Value.inside_of_nodes?_eq_none rfl)
  | .binary .or left right, he, ctx, hctx => by
    rw [Expr.Every] at he
    rw [eval, eval]
    refine (mirrors_eval h habsolute left he.1 ctx hctx).bind fun l _ => ?_
    -- both runs skip the right operand, or neither does
    rw [Value.toBool_rename]
    split
    · exact .pure (Value.inside_of_nodes?_eq_none rfl)
    · refine (mirrors_eval h habsolute right he.2 ctx hctx).bind fun r _ => ?_
      rw [Value.toBool_rename]
      exact .pure (Value.inside_of_nodes?_eq_none rfl)
  | .binary .and left right, he, ctx, hctx => by
    rw [Expr.Every] at he
    rw [eval, eval]
    refine (mirrors_eval h habsolute left he.1 ctx hctx).bind fun l _ => ?_
    rw [Value.toBool_rename]
    split
    · refine (mirrors_eval h habsolute right he.2 ctx hctx).bind fun r _ => ?_
      rw [Value.toBool_rename]
      exact .pure (Value.inside_of_nodes?_eq_none rfl)
    · exact .pure (Value.inside_of_nodes?_eq_none rfl)
  | .binary (.compare op) left right, he, ctx, hctx => by
    rw [Expr.Every] at he
    rw [eval, eval]
    refine (mirrors_eval h habsolute left he.1 ctx hctx).bind fun l hl => ?_
    refine (mirrors_eval h habsolute right he.2 ctx hctx).bind fun r hr => ?_
    rw [h.compareValues_rename op hl hr]
    exact .pure (Value.inside_of_nodes?_eq_none rfl)
  | .binary (.arithmetic op) left right, he, ctx, hctx => by
    rw [Expr.Every] at he
    rw [eval, eval]
    refine (mirrors_eval h habsolute left he.1 ctx hctx).bind fun l hl => ?_
    refine (mirrors_eval h habsolute right he.2 ctx hctx).bind fun r hr => ?_
    rw [h.toFloat_rename hl, h.toFloat_rename hr]
    exact .pure (Value.inside_of_nodes?_eq_none rfl)
  | .not arg, he, ctx, hctx => by
    rw [Expr.Every] at he
    rw [eval, eval]
    refine (mirrors_eval h habsolute arg he ctx hctx).bind fun value _ => ?_
    rw [Value.toBool_rename]
    exact .pure (Value.inside_of_nodes?_eq_none rfl)
  | .negate arg, he, ctx, hctx => by
    rw [Expr.Every] at he
    rw [eval, eval]
    refine (mirrors_eval h habsolute arg he ctx hctx).bind fun value hvalue => ?_
    rw [h.toFloat_rename hvalue]
    exact .pure (Value.inside_of_nodes?_eq_none rfl)
  | .call name args, he, ctx, hctx => by
    rw [Expr.Every] at he
    rw [eval, eval]
    refine (mirrors_evalArgs h habsolute args he.2 ctx hctx).bind fun values hvalues => ?_
    rw [h.call_rename hctx name hvalues]
    refine .lift fun value hvalue => ?_
    have hnone := nodes?_of_call hvalue
    exact ⟨Value.rename_of_nodes?_eq_none hnone, Value.inside_of_nodes?_eq_none hnone⟩
  | .number x, _, ctx, _ => by
    rw [eval, eval]
    exact .pure (Value.inside_of_nodes?_eq_none rfl)
  | .string text, _, ctx, _ => by
    rw [eval, eval]
    exact .pure (Value.inside_of_nodes?_eq_none rfl)

/-- The arguments of a call, one behind the other with the visits that each of them makes. -/
theorem mirrors_evalArgs (h : Matching counts f near env env')
    (habsolute : ∀ p, onPath p → p.absolute = true → MatchingDocument counts f near env env') :
    ∀ args : List Expr, Expr.EveryList onPath onCall args → ∀ ctx : Context, near ctx.node →
    Mirrors counts (evalArgs env args ctx) (evalArgs env' args (ctx.rename f))
      (List.map (Value.rename f)) fun values => ∀ value ∈ values, value.Inside near
  | [], _, ctx, _ => by
    rw [evalArgs, evalArgs]
    exact .pure fun _ => (nomatch ·)
  | arg :: rest, hargs, ctx, hctx => by
    rw [Expr.EveryList] at hargs
    rw [evalArgs, evalArgs]
    refine (mirrors_eval h habsolute arg hargs.1 ctx hctx).bind fun value hvalue => ?_
    refine (mirrors_evalArgs h habsolute rest hargs.2 ctx hctx).bind fun values hvalues => ?_
    exact .pure (φ := List.map (Value.rename f)) (List.forall_mem_cons.2 ⟨hvalue, hvalues⟩)

/-- A path, from the starts or from the document if it is absolute. -/
theorem mirrors_evalPath (h : Matching counts f near env env')
    (habsolute : ∀ p, onPath p → p.absolute = true → MatchingDocument counts f near env env') :
    ∀ p : Path Expr, Expr.EveryPath onPath onCall p →
    ∀ {starts : List Item}, (∀ x ∈ starts, x.Near counts f near env env') →
    Mirrors counts (evalPath env p starts) (evalPath env' p (starts.map (Item.rename f)))
      (Value.rename f) (Value.Inside near)
  | ⟨absolute, steps⟩, hp, starts, hstarts => by
    rw [Expr.EveryPath] at hp
    rw [evalPath, evalPath]
    cases absolute with
    | false => exact mirrors_evalSteps h habsolute steps hp.2 hstarts
    | true =>
      have hdocument : ∀ x ∈ [Item.document], x.Near counts f near env env' := by
        intro x hx
        cases List.mem_singleton.1 hx
        exact habsolute _ hp.1 rfl
      exact mirrors_evalSteps h habsolute steps hp.2 hdocument

/-- The paths of a union, from the same starts. -/
theorem mirrors_evalPaths (h : Matching counts f near env env')
    (habsolute : ∀ p, onPath p → p.absolute = true → MatchingDocument counts f near env env') :
    ∀ paths : List (Path Expr), Expr.EveryPaths onPath onCall paths →
    ∀ {starts : List Item}, (∀ x ∈ starts, x.Near counts f near env env') →
    Mirrors counts (evalPaths env paths starts) (evalPaths env' paths (starts.map (Item.rename f)))
      (List.map f) fun found => ∀ id ∈ found, near id
  | [], _, starts, _ => by
    rw [evalPaths, evalPaths]
    exact .pure fun _ => (nomatch ·)
  | p :: rest, hpaths, starts, hstarts => by
    rw [Expr.EveryPaths] at hpaths
    rw [evalPaths, evalPaths]
    refine (mirrors_evalPath h habsolute p hpaths.1 hstarts).bind fun value hvalue => ?_
    refine (mirrors_evalPaths h habsolute rest hpaths.2 hstarts).bind fun later hlater => ?_
    rw [Value.nodes?_rename, ← List.map_append]
    refine .pure (List.forall_mem_append.2 ⟨?_, hlater⟩)
    cases value with
    | nodes ids => exact hvalue ids rfl
    | _ => exact fun _ => (nomatch ·)

/-- The steps of a path: the last one may be for attributes and ends in values. -/
theorem mirrors_evalSteps (h : Matching counts f near env env')
    (habsolute : ∀ p, onPath p → p.absolute = true → MatchingDocument counts f near env env') :
    ∀ steps : List (Step Expr), Expr.EverySteps onPath onCall steps →
    ∀ {items : List Item}, (∀ x ∈ items, x.Near counts f near env env') →
    Mirrors counts (evalSteps env steps items) (evalSteps env' steps (items.map (Item.rename f)))
      (Value.rename f) (Value.Inside near)
  | [], _, items, hitems => by
    rw [evalSteps, evalSteps, Item.filterMap_node?_rename]
    exact .pure (Value.inside_nodes (near_of_mem_filterMap hitems))
  | ⟨axis, test, predicates⟩ :: rest, hsteps, items, hitems => by
    rw [Expr.EverySteps] at hsteps
    have hnext : Mirrors counts (do
        let found ← evalStep env ⟨axis, test, predicates⟩ items
        evalSteps env rest (found.map Item.node)) (do
          let found ← evalStep env' ⟨axis, test, predicates⟩ (items.map (Item.rename f))
          evalSteps env' rest (found.map Item.node)) (Value.rename f) (Value.Inside near) := by
      refine (mirrors_evalStep h habsolute _ hsteps.1 hitems).bind fun found hfound => ?_
      rw [← Item.map_node_rename]
      exact mirrors_evalSteps h habsolute rest hsteps.2 (near_of_mem_map hfound)
    cases test with
    | element name =>
      rw [evalSteps, evalSteps]
      exact hnext
    | any =>
      rw [evalSteps, evalSteps]
      exact hnext
    | _ =>
      rw [evalSteps, evalSteps]
      simp only [Item.filterMap_node?_rename,
        h.attributeValues_map _ (near_of_mem_filterMap hitems)]
      exact .pure (Value.inside_of_nodes?_eq_none rfl)

/-- One step: candidates, predicates, and the groups merged. -/
theorem mirrors_evalStep (h : Matching counts f near env env')
    (habsolute : ∀ p, onPath p → p.absolute = true → MatchingDocument counts f near env env') :
    ∀ s : Step Expr, Expr.EveryStep onPath onCall s →
    ∀ {items : List Item}, (∀ x ∈ items, x.Near counts f near env env') →
    Mirrors counts (evalStep env s items) (evalStep env' s (items.map (Item.rename f)))
      (List.map f) fun found => ∀ id ∈ found, near id
  | ⟨axis, test, predicates⟩, hs, items, hitems => by
    rw [Expr.EveryStep] at hs
    rw [evalStep, evalStep]
    refine (Mirrors.mapM (ψ := List.map f) (R := fun group => ∀ id ∈ group, near id)
      fun x hx => ?_).bind fun groups hgroups => ?_
    · -- one item: its candidates correspond, and each is tested at the same place
      refine (h.mirrors_candidates axis test (hitems x hx)).bind fun found hfound => ?_
      rw [List.length_map]
      exact mirrors_keep _ _ hfound fun ctx hctx =>
        mirrors_holdAll h habsolute predicates hs ctx hctx
    · rw [h.merge_map hgroups]
      refine .pure fun id hid => ?_
      obtain ⟨group, hgroup, hid⟩ := mem_merge.1 hid
      exact hgroups group hgroup id hid

/-- Predicates are looked at until one does not hold, at the same one on both sides. -/
theorem mirrors_holdAll (h : Matching counts f near env env')
    (habsolute : ∀ p, onPath p → p.absolute = true → MatchingDocument counts f near env env') :
    ∀ predicates : List Expr, Expr.EveryList onPath onCall predicates →
    ∀ ctx : Context, near ctx.node →
    Mirrors counts (holdAll env predicates ctx) (holdAll env' predicates (ctx.rename f)) id
      fun _ => True
  | [], _, ctx, _ => by
    rw [holdAll, holdAll]
    exact .pure trivial
  | predicate :: rest, hpredicates, ctx, hctx => by
    rw [Expr.EveryList] at hpredicates
    rw [holdAll, holdAll]
    refine (mirrors_eval h habsolute predicate hpredicates.1 ctx hctx).bind fun value _ => ?_
    rw [holdsAt_rename, Context.rename]
    split
    · exact mirrors_holdAll h habsolute rest hpredicates.2 ctx hctx
    · exact .pure trivial

end

/-- A whole evaluation mirrors another one whose roots are renamed. -/
theorem mirrors_evalFrom (h : Matching counts f near env env')
    (habsolute : ∀ p, onPath p → p.absolute = true → MatchingDocument counts f near env env')
    (hroots : env'.roots = env.roots.map f) (hnear : ∀ r ∈ env.roots, near r) {first : NodeId}
    (hfirst : near first) : ∀ {e : Expr}, e.Every onPath onCall →
    Mirrors counts (evalFrom env first e) (evalFrom env' (f first) e) (Value.rename f)
      (Value.Inside near)
  | .path p, he => by
    rw [Expr.Every] at he
    rw [evalFrom, evalFrom, hroots, ← Item.map_node_rename]
    exact mirrors_evalPath h habsolute p he (near_of_mem_map hnear)
  | .union paths, he => by
    rw [Expr.Every] at he
    rw [evalFrom, evalFrom, hroots, ← Item.map_node_rename]
    refine (mirrors_evalPaths h habsolute paths he (near_of_mem_map hnear)).bind
      fun found hfound => ?_
    rw [h.sorted_eq hfound]
    exact .pure (Value.inside_nodes fun id hid => hfound id (mem_inOrder.1 hid))
  | .attribute test, _ => by
    rw [evalFrom, evalFrom, hroots, h.attributeValues_map test hnear]
    exact .pure (Value.inside_of_nodes?_eq_none rfl)
  | .binary _ _ _, he => mirrors_eval h habsolute _ he ⟨first, 1, 1⟩ hfirst
  | .not _, he => mirrors_eval h habsolute _ he ⟨first, 1, 1⟩ hfirst
  | .negate _, he => mirrors_eval h habsolute _ he ⟨first, 1, 1⟩ hfirst
  | .call _ _, he => mirrors_eval h habsolute _ he ⟨first, 1, 1⟩ hfirst
  | .number _, he => mirrors_eval h habsolute _ he ⟨first, 1, 1⟩ hfirst
  | .string _, he => mirrors_eval h habsolute _ he ⟨first, 1, 1⟩ hfirst

end Matching

end MarkupPath.Evaluation
