import MarkupPath.Proofs.Evaluation.Decided
import MarkupPath.Proofs.Evaluation.Limit
import MarkupPath.Proofs.Evaluation.RootSet
import MarkupPath.Proofs.Evaluation.TwoRuns

/-!
# What a path leaves to further predicates

A further predicate at the last step of a path changes nothing of what happens before it: the steps
in front, the candidates of the last step, and the predicates that this step has already, which may
be any and may fail. They come to an error, or for each item to a list of contexts, its survivors,
whose places count all candidates of the step. Where the further predicates are decided, the path
with them selects the merged survivors that their verdict holds of (`exists_survivors`), so it
depends on them through the verdict alone.
-/

set_option autoImplicit false

namespace MarkupPath.Evaluation

open MarkupPath.Query MarkupPath.Tree

namespace Visiting

variable {α : Type}

/-- Without a limit a computation comes to the same result whatever it has counted before. -/
theorem Metered.mirrors {m : Option Nat → Visiting α} {P : α → Prop} (hm : Metered m)
    (hP : Returns (m none) P) : Mirrors (fun _ _ => True) (m none) (m none) id P := by
  obtain ⟨result, cost, hspends⟩ := hm
  intro k k' _
  have hrun : ∀ k, m none k = result.map fun a => (a, k + cost) := fun k =>
    hspends none k fun _ hmost => nomatch hmost
  have houtcome : Outcome (fun _ => True) P ((m none k).map (·.1)) := hP k
  rw [hrun] at houtcome
  rw [hrun, hrun]
  cases result with
  | ok a => exact .ok houtcome trivial
  | error e => exact .error e

/-- A second computation that goes on mirrors the first one, if what it goes on with mirrors
nothing. -/
theorem Mirrors.bind_right {α' β' : Type} {counts : Nat → Nat → Prop} {m : Visiting α}
    {m' : Visiting α'} {φ : α → α'} {P : α → Prop} {f' : α' → Visiting β'} {ψ : α → β'}
    {R : α → Prop} (hm : Mirrors counts m m' φ P)
    (hf : ∀ a, P a → Mirrors counts (Pure.pure a) (f' (φ a)) ψ R) :
    Mirrors counts m (m' >>= f') ψ R := by
  have hbind := hm.bind hf
  rwa [bind_pure] at hbind

/-- What a computation comes to decides what it comes to together with what follows it. -/
theorem run'_bind_cases {β : Type} (m : Visiting α) (k : Nat) :
    (∃ e, m.run' k = .error e ∧ ∀ f : α → Visiting β, (m >>= f).run' k = .error e) ∨
      ∃ a k', m.run' k = .ok a ∧ ∀ f : α → Visiting β, (m >>= f).run' k = (f a).run' k' := by
  simp only [StateT.run', Bind.bind, StateT.bind]
  cases m k with
  | error e => exact .inl ⟨e, rfl, fun _ => rfl⟩
  | ok entry => exact .inr ⟨entry.1, entry.2, rfl, fun _ => rfl⟩

end Visiting

open Visiting

variable {env : Setting}

/-! ## Steps -/

/-- A step that tests no attributes hands the nodes it selects on. -/
theorem evalSteps_cons {s : Step Expr} (hs : s.test.isAttribute = false) (rest : List (Step Expr))
    (items : List Item) :
    evalSteps env (s :: rest) items = (do
      let found ← evalStep env s items
      evalSteps env rest (found.map Item.node)) := by
  obtain ⟨axis, test, predicates⟩ := s
  cases test with
  | element name => rw [evalSteps]
  | any => rw [evalSteps]
  | _ => cases hs

/-! ## Further predicates -/

/-- Predicates are tested one list after the other. -/
theorem holdAll_append (predicates further : List Expr) (ctx : Context) :
    holdAll env (predicates ++ further) ctx = (do
      let kept ← holdAll env predicates ctx
      if kept then holdAll env further ctx else return false) := by
  induction predicates with
  | nil => rw [List.nil_append, holdAll, pure_bind, if_pos rfl]
  | cons predicate rest ih =>
    rw [List.cons_append, holdAll, holdAll, bind_assoc]
    congr 1
    funext value
    split
    · exact ih
    · rw [pure_bind, if_neg Bool.false_ne_true]

/-- The predicates are decided at every node around the roots. -/
def Decides (env : Setting) (predicates : List Expr) (verdict : Context → Bool) : Prop :=
  ∀ ctx : Context, env.Around ctx.node → Yields (holdAll env predicates ctx) (verdict ctx)

variable {further : List Expr} {verdict : Context → Bool}

/-! ## Survivors of a step -/

/-- The places that a test keeps. -/
def keepPlaces (test : Context → Visiting Bool) : List Context → Visiting (List Context)
  | [] => return []
  | ctx :: rest => do
      let kept ← test ctx
      let later ← keepPlaces test rest
      return if kept then ctx :: later else later

/-- The candidates of a step at an item that pass its predicates, at their places. -/
def survivors (env : Setting) (s : Step Expr) (x : Item) : Visiting (List Context) := do
  let found ← candidates env s.axis s.test x
  keepPlaces (fun ctx => holdAll env s.predicates ctx) (places found.length 1 found)

/-- The nodes of the survivors of which a verdict holds. -/
def chosen (verdict : Context → Bool) (kept : List Context) : List NodeId :=
  (kept.filter verdict).map Context.node

/-- The step with further predicates. -/
def furtherStep (s : Step Expr) (further : List Expr) : Step Expr :=
  { s with predicates := s.predicates ++ further }

/-- A further test behind the others sees the places that were counted before it. -/
theorem mirrors_keepPlaces {test test' : Context → Visiting Bool} (size position : Nat)
    {ids : List NodeId} (htest : ∀ ctx : Context, ctx.node ∈ ids →
      Mirrors (fun _ _ => True) (test ctx) (test' ctx) (· && verdict ctx) fun _ => True) :
    Mirrors (fun _ _ => True) (keepPlaces test (places size position ids))
      (keep test' size position ids) (chosen verdict) fun _ => True := by
  induction ids generalizing position with
  | nil => exact .pure (φ := chosen verdict) trivial
  | cons id rest ih =>
    rw [places, keepPlaces, keep]
    refine (htest _ List.mem_cons_self).bind fun kept _ => ?_
    refine (ih (position + 1) fun ctx hctx => htest ctx (List.mem_cons_of_mem _ hctx)).bind
      fun later _ => ?_
    have hchosen : (if (kept && verdict ⟨id, position, size⟩) = true then
        id :: chosen verdict later else chosen verdict later) =
        chosen verdict (if kept then ⟨id, position, size⟩ :: later else later) := by
      cases kept <;> cases hverdict : verdict ⟨id, position, size⟩ <;> simp [chosen, hverdict]
    rw [hchosen]
    exact .pure (φ := chosen verdict) trivial

section Unlimited

variable (hlimit : env.limit = none)

include hlimit

theorem under_none : env.under none = env := by
  rw [Setting.under, ← hlimit]

/-- Further predicates behind others: they are reached only where the others hold. -/
theorem mirrors_holdAll_append (hfurther : Decides env further verdict) (predicates : List Expr)
    {ctx : Context} (hctx : env.Around ctx.node) :
    Mirrors (fun _ _ => True) (holdAll env predicates ctx) (holdAll env (predicates ++ further) ctx)
      (· && verdict ctx) fun _ => True := by
  have hself := (metered_holdAll env predicates ctx).mirrors (returns_true _)
  rw [under_none hlimit] at hself
  rw [holdAll_append]
  refine hself.bind_right fun kept _ => ?_
  cases kept with
  | true =>
    have hverdict : Yields (holdAll env further ctx) (true && verdict ctx) := hfurther ctx hctx
    exact (Mirrors.of_gives (Yields.pure true) hverdict fun _ _ ha hb => by rw [ha, hb]).mono
      fun _ _ => trivial
  | false => exact .pure trivial

/-- What survives the further predicates are the survivors of the others that the verdict
chooses. -/
theorem mirrors_survivors (henv : env.Sound) (hfurther : Decides env further verdict)
    (s : Step Expr) {x : Item} (hx : x.Around env) :
    Mirrors (fun _ _ => True) (survivors env s x) (do
      let found ← candidates env s.axis s.test x
      keep (fun ctx => holdAll env (s.predicates ++ further) ctx) found.length 1 found)
      (chosen verdict) fun _ => True := by
  have hcandidates := (metered_candidates env s.axis s.test x).mirrors
    (P := fun found => found.Sublist env.order) (by
      rw [under_none hlimit]
      exact (gives_candidates henv (fun _ _ => trivial) hx).mono fun _ hfound => hfound.1)
  rw [under_none hlimit] at hcandidates
  refine hcandidates.bind fun found hsub => mirrors_keepPlaces _ _ fun ctx hctx => ?_
  exact mirrors_holdAll_append hlimit hfurther s.predicates
    (henv.mem_order_iff.1 (hsub.subset hctx)).2

/-- With further predicates a step selects the chosen ones of its survivors. -/
theorem run'_evalStep_further (henv : env.Sound) (hfurther : Decides env further verdict)
    (s : Step Expr) {items : List Item} (hitems : ∀ x ∈ items, x.Around env) (k : Nat) :
    (evalStep env (furtherStep s further) items).run' k =
      ((items.mapM (survivors env s)).run' k).map fun groups =>
        merge env (groups.map (chosen verdict)) := by
  have hgroups : Mirrors (fun _ _ => True) (items.mapM (survivors env s))
      (items.mapM fun x => do
        let found ← candidates env s.axis s.test x
        keep (fun ctx => holdAll env (s.predicates ++ further) ctx) found.length 1 found)
      (List.map (chosen verdict)) fun _ => True := by
    have hmapped := Mirrors.mapM (g := fun x => x) fun x hx =>
      mirrors_survivors hlimit henv hfurther s (hitems x hx)
    rw [List.map_id'] at hmapped
    exact hmapped.mono fun _ _ => trivial
  have hmerged : Mirrors (fun _ _ => True) (items.mapM (survivors env s))
      (evalStep env (furtherStep s further) items)
      (fun groups => merge env (groups.map (chosen verdict))) fun _ => True := by
    rw [furtherStep, evalStep]
    exact hgroups.bind_right fun groups _ => .pure trivial
  exact hmerged.run'_eq k k trivial

/-! ## Survivors of a path -/

/-- The nodes of a value, or the fault that it has none. -/
def selected : Value → Except EvaluationError (List NodeId)
  | .nodes ids => .ok ids
  | value => .error (.notNodes value.typeName)

/-- Before the last step takes its further predicates, a path has come to a fault or to survivors of
the last step, item by item. -/
theorem exists_survivors_of_steps (henv : env.Sound) {last : Step Expr}
    (hlast : last.test.isAttribute = false) (before : List (Step Expr)) {items : List Item}
    (hitems : ∀ x ∈ items, x.Around env) (k : Nat) :
    ∃ result : Except EvaluationError (List (List Context)),
      ∀ further verdict, Decides env further verdict →
        ((evalSteps env (before ++ [furtherStep last further]) items).run' k >>= selected) =
          result.map fun groups => merge env (groups.map (chosen verdict)) := by
  induction before generalizing items k with
  | nil =>
    refine ⟨(items.mapM (survivors env last)).run' k, fun further verdict hfurther => ?_⟩
    rw [List.nil_append, evalSteps_cons (s := furtherStep last further) hlast,
      ← run'_evalStep_further hlimit henv hfurther last hitems k]
    rcases run'_bind_cases (β := Value) (evalStep env (furtherStep last further) items) k with
      ⟨e, hrun, hbind⟩ | ⟨found, k', hrun, hbind⟩
    · rw [hrun, hbind]
      rfl
    · rw [hrun, hbind, evalSteps, filterMap_node?]
      rfl
  | cons s before ih =>
    cases htest : s.test.isAttribute with
    | true =>
      -- a test of attributes ends the path before its last step
      refine ⟨.error (.notNodes "attribute values"), fun further verdict _ => ?_⟩
      obtain ⟨axis, test, predicates⟩ := s
      cases test with
      | element name => cases htest
      | any => cases htest
      | _ =>
        rw [List.cons_append, evalSteps]
        rfl
    | false =>
      rcases run'_bind_cases (β := Value) (evalStep env s items) k with
        ⟨e, -, hbind⟩ | ⟨found, k', hrun, hbind⟩
      · refine ⟨.error e, fun further verdict _ => ?_⟩
        rw [List.cons_append, evalSteps_cons htest, hbind]
        rfl
      · have hfound := returns_evalStep henv s hitems k
        rw [hrun] at hfound
        obtain ⟨result, hresult⟩ := ih (around_of_mem_order henv hfound) k'
        refine ⟨result, fun further verdict hfurther => ?_⟩
        rw [List.cons_append, evalSteps_cons htest, hbind]
        exact hresult further verdict hfurther

end Unlimited

/-- A path with further predicates at its last step. -/
def furtherPath (absolute : Bool) (before : List (Step Expr)) (last : Step Expr)
    (further : List Expr) : Path Expr :=
  ⟨absolute, before ++ [furtherStep last further]⟩

/-- Over known roots and without a limit a path comes to a fault or to survivors of its last step,
whatever further predicates that step is given; where these are decided, it selects the chosen
ones. -/
theorem exists_survivors {doc : Document} {roots : List NodeId} (hdoc : doc.WellFormed)
    (hroots : roots ≠ []) (hknown : ∀ r ∈ roots, r < doc.size) (absolute : Bool)
    (before : List (Step Expr)) {last : Step Expr} (hlast : last.test.isAttribute = false) :
    ∃ result : Except EvaluationError (List (List Context)),
      ∀ further verdict, Decides (Setting.of doc roots none) further verdict →
        evaluate doc roots (.path (furtherPath absolute before last further)) none =
          result.map fun groups =>
            merge (Setting.of doc roots none) (groups.map (chosen verdict)) := by
  have henv := Setting.Sound.of hdoc hknown none
  obtain ⟨first, hfirst⟩ := Option.isSome_iff_exists.1 (List.isSome_head?.2 hroots)
  have hstarts : ∀ x ∈ (if absolute then [Item.document] else roots.map Item.node),
      x.Around (Setting.of doc roots none) := by
    intro x hx
    split at hx
    · cases List.mem_singleton.1 hx
      trivial
    · exact around_of_mem_roots henv x hx
  obtain ⟨result, hresult⟩ := exists_survivors_of_steps rfl henv hlast before hstarts 0
  refine ⟨result, fun further verdict hfurther => ?_⟩
  rw [← hresult further verdict hfurther, evaluate, evaluateValue_eq hfirst hknown, evalFrom,
    furtherPath, evalPath]
  refine congrArg (Bind.bind _) (funext fun value => ?_)
  cases value <;> rfl

end MarkupPath.Evaluation
