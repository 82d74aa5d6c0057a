import MarkupPath.Proofs.Evaluation.DocumentOrder

/-!
# Limits on visits

What an evaluation comes to does not depend on the limit on its visits, and neither does the number
of visits it takes: `Visiting.Spends` says of a computation, taken under every limit at once, that
it always comes to the same result after the same number of visits, unless it is refused since
these go over the limit. Costs add up when computations are put together (`Spends.bind`,
`Spends.bind_error`), so every expression has a result and a cost of its own (`metered_eval`), with
no assumption about the document or the expression.

For whole evaluations the cost is a threshold: limits from there on change nothing, and every
smaller one is reported as reached (`exists_visits_threshold`).
-/

set_option autoImplicit false

namespace MarkupPath.Evaluation

open MarkupPath.Query MarkupPath.Tree

namespace Visiting

variable {α β γ : Type}

/-- A result that was come to after some visits, refused if these are more than the limit. -/
def refuse (limit : Option Nat) (visited : Nat) (result : Except EvaluationError α) :
    Except EvaluationError α :=
  match limit with
  | none => result
  | some most => if most < visited then .error (.limit most) else result

/-- Under every limit that has not been gone over yet, the computation comes to the result after
`cost` further visits. -/
def Spends (m : Option Nat → Visiting α) (result : Except EvaluationError α) (cost : Nat) : Prop :=
  ∀ limit k, (∀ most ∈ limit, k ≤ most) →
    m limit k = refuse limit (k + cost) (result.map fun a => (a, k + cost))

/-- The computation comes to one result after one number of visits, whatever the limit. -/
def Metered (m : Option Nat → Visiting α) : Prop := ∃ result cost, Spends m result cost

theorem refuse_of_forall_le {limit : Option Nat} {visited : Nat}
    (h : ∀ most ∈ limit, visited ≤ most) (result : Except EvaluationError α) :
    refuse limit visited result = result := by
  cases limit with
  | none => rfl
  | some most => exact if_neg (Nat.not_lt.2 (h most rfl))

/-! ## Putting computations together -/

section

variable {m : Option Nat → Visiting α} {f : Option Nat → α → Visiting β}
  {result : Except EvaluationError β} {a : α} {e : EvaluationError} {cost later : Nat}

theorem Spends.pure (a : α) : Spends (fun _ => pure a) (.ok a) 0 :=
  fun _ _ hk => (refuse_of_forall_le hk _).symm

/-- A computation that goes on from a value takes the visits of both parts. -/
theorem Spends.bind (hm : Spends m (.ok a) cost)
    (hf : Spends (fun limit => f limit a) result later) :
    Spends (fun limit => m limit >>= f limit) result (cost + later) := by
  intro limit k hk
  have hrun := hm limit k hk
  simp only [Bind.bind, StateT.bind]
  by_cases hfits : ∀ most ∈ limit, k + cost ≤ most
  · rw [hrun, refuse_of_forall_le hfits, ← Nat.add_assoc]
    exact hf limit (k + cost) hfits
  · -- the first part goes over the limit, so both together do
    cases limit with
    | none => simp at hfits
    | some most =>
      have hover : most < k + cost := by simpa using hfits
      have hboth : most < k + (cost + later) := by omega
      rw [hrun, refuse, refuse, if_pos hover, if_pos hboth]
      rfl

/-- To turn the value into another one costs nothing. -/
theorem Spends.map (hm : Spends m (.ok a) cost) (g : α → β) :
    Spends (fun limit => m limit >>= fun a => Pure.pure (g a)) (.ok (g a)) cost := by
  rw [← Nat.add_zero cost]
  exact hm.bind (.pure (g a))

/-- A computation ends at an error of its first part. -/
theorem Spends.bind_error (hm : Spends m (.error e) cost) :
    Spends (fun limit => m limit >>= f limit) (.error e) cost := by
  intro limit k hk
  have hrun := hm limit k hk
  simp only [Bind.bind, StateT.bind]
  rw [hrun]
  cases limit with
  | none => rfl
  | some most =>
    rw [refuse, refuse]
    split <;> rfl

/-- From the start a computation is refused exactly if its cost is more than the limit. -/
theorem Spends.run'_eq {result : Except EvaluationError α} (hm : Spends m result cost)
    (limit : Option Nat) : (m limit).run' 0 = refuse limit cost result := by
  have hrun := hm limit 0 fun _ _ => Nat.zero_le _
  rw [Nat.zero_add] at hrun
  rw [StateT.run', hrun]
  cases limit with
  | none => cases result <;> rfl
  | some most =>
    rw [refuse, refuse]
    split
    · rfl
    · cases result <;> rfl

theorem Metered.pure (a : α) : Metered fun _ => (Pure.pure a : Visiting α) := ⟨_, _, .pure a⟩

theorem Metered.bind (hm : Metered m) (hf : ∀ a, Metered fun limit => f limit a) :
    Metered fun limit => m limit >>= f limit := by
  obtain ⟨result, cost, hm⟩ := hm
  cases result with
  | error e => exact ⟨_, _, hm.bind_error⟩
  | ok a =>
    obtain ⟨result', later, hf⟩ := hf a
    exact ⟨_, _, hm.bind hf⟩

theorem Metered.lift (result : Except EvaluationError α) :
    Metered fun _ => (liftM result : Visiting α) := by
  refine ⟨result, 0, fun limit k hk => ?_⟩
  rw [Nat.add_zero, refuse_of_forall_le hk]
  cases result <;> rfl

/-- A list of metered computations is metered; the induction is on the list. -/
theorem Metered.mapM {f : Option Nat → γ → Visiting β} {items : List γ}
    (h : ∀ x ∈ items, Metered fun limit => f limit x) :
    Metered fun limit => items.mapM (f limit) := by
  induction items with
  | nil => exact .pure []
  | cons x rest ih =>
    simp only [List.mapM_cons]
    refine (h x List.mem_cons_self).bind fun b => ?_
    refine (ih fun y hy => h y (List.mem_cons_of_mem _ hy)).bind fun bs => ?_
    exact .pure (b :: bs)

end

end Visiting

open Visiting

/-- The setting under a limit. -/
def Setting.under (env : Setting) (limit : Option Nat) : Setting := { env with limit := limit }

variable (env : Setting)

@[simp] theorem Setting.under_doc (limit : Option Nat) : (env.under limit).doc = env.doc := rfl

@[simp] theorem Setting.under_sorted (limit : Option Nat) (ids : List NodeId) :
    (env.under limit).sorted ids = env.sorted ids := rfl

@[simp] theorem merge_under (limit : Option Nat) (groups : List (List NodeId)) :
    merge (env.under limit) groups = merge env groups := rfl

/-- Coming across nodes costs their number. -/
theorem spends_visit (count : Nat) :
    Spends (fun limit => visit (env.under limit) count) (.ok ()) count := by
  intro limit k _
  cases limit with
  | none => rfl
  | some most =>
    change (if k + count > most then throw (.limit most) else pure () : Visiting Unit) (k + count) =
      refuse (some most) (k + count) (.ok ((), k + count))
    rw [refuse]
    split <;> rfl

theorem metered_candidates (axis : Axis) (test : NodeTest) (x : Item) :
    Metered fun limit => candidates (env.under limit) axis test x := by
  let found := navigate env.doc env.roots axis x
  let admitted := found.filter (passes env.doc test)
  have hvisit : Metered fun limit => visit (env.under limit) found.length :=
    ⟨_, _, spends_visit env found.length⟩
  exact hvisit.bind fun _ =>
    .pure (if x == .document && env.roots.length > 1 then env.sorted admitted else admitted)

theorem metered_keep {test : Option Nat → Context → Visiting Bool}
    (htest : ∀ ctx, Metered fun limit => test limit ctx) (size position : Nat)
    (ids : List NodeId) : Metered fun limit => keep (test limit) size position ids := by
  induction ids generalizing position with
  | nil => exact .pure []
  | cons id rest ih =>
    simp only [keep]
    refine (htest _).bind fun kept => (ih (position + 1)).bind fun later => ?_
    exact .pure (if kept then id :: later else later)

mutual

/-- Every expression has a result and a cost of its own, whatever the limit. -/
theorem metered_eval : ∀ (e : Expr) (ctx : Context),
    Metered fun limit => eval (env.under limit) e ctx
  | .path p, ctx => by
    simp only [eval]
    exact metered_evalPath p _
  | .union paths, ctx => by
    simp only [eval, Setting.under_sorted]
    exact (metered_evalPaths paths _).bind fun found => .pure _
  | .attribute test, ctx => by
    simp only [eval, Setting.under_doc]
    exact .pure _
  | .binary .or left right, ctx => by
    simp only [eval]
    refine (metered_eval left ctx).bind fun l => ?_
    -- the value of the left operand alone decides whether the right one is looked at
    split
    · exact .pure _
    · exact (metered_eval right ctx).bind fun r => .pure _
  | .binary .and left right, ctx => by
    simp only [eval]
    refine (metered_eval left ctx).bind fun l => ?_
    split
    · exact (metered_eval right ctx).bind fun r => .pure _
    · exact .pure _
  | .binary (.compare op) left right, ctx => by
    simp only [eval, Setting.under_doc]
    exact (metered_eval left ctx).bind fun l => (metered_eval right ctx).bind fun r => .pure _
  | .binary (.arithmetic op) left right, ctx => by
    simp only [eval, Setting.under_doc]
    exact (metered_eval left ctx).bind fun l => (metered_eval right ctx).bind fun r => .pure _
  | .not arg, ctx => by
    simp only [eval]
    exact (metered_eval arg ctx).bind fun value => .pure _
  | .negate arg, ctx => by
    simp only [eval, Setting.under_doc]
    exact (metered_eval arg ctx).bind fun value => .pure _
  | .call name args, ctx => by
    simp only [eval, Setting.under_doc]
    exact (metered_evalArgs args ctx).bind fun values => .lift _
  | .number x, ctx => by
    simp only [eval]
    exact .pure _
  | .string text, ctx => by
    simp only [eval]
    exact .pure _

theorem metered_evalArgs : ∀ (args : List Expr) (ctx : Context),
    Metered fun limit => evalArgs (env.under limit) args ctx
  | [], ctx => by
    simp only [evalArgs]
    exact .pure _
  | arg :: rest, ctx => by
    simp only [evalArgs]
    refine (metered_eval arg ctx).bind fun value => ?_
    exact (metered_evalArgs rest ctx).bind fun values => .pure _

theorem metered_evalPath : ∀ (p : Path Expr) (starts : List Item),
    Metered fun limit => evalPath (env.under limit) p starts
  | ⟨absolute, steps⟩, starts => by
    simp only [evalPath]
    exact metered_evalSteps steps _

theorem metered_evalPaths : ∀ (paths : List (Path Expr)) (starts : List Item),
    Metered fun limit => evalPaths (env.under limit) paths starts
  | [], starts => by
    simp only [evalPaths]
    exact .pure _
  | p :: rest, starts => by
    simp only [evalPaths]
    refine (metered_evalPath p starts).bind fun value => ?_
    exact (metered_evalPaths rest starts).bind fun later => .pure _

/-- Each step goes on with the visits that the ones before it have made. -/
theorem metered_evalSteps : ∀ (steps : List (Step Expr)) (items : List Item),
    Metered fun limit => evalSteps (env.under limit) steps items
  | [], items => by
    simp only [evalSteps]
    exact .pure _
  | s :: rest, items => by
    simp only [evalSteps, Setting.under_doc]
    split
    · exact .pure _
    · exact (metered_evalStep s items).bind fun found => metered_evalSteps rest _

theorem metered_evalStep : ∀ (s : Step Expr) (items : List Item),
    Metered fun limit => evalStep (env.under limit) s items
  | ⟨axis, test, predicates⟩, items => by
    simp only [evalStep, merge_under]
    refine Metered.bind (.mapM fun x _ => ?_) fun groups => .pure _
    refine (metered_candidates env axis test x).bind fun found => ?_
    exact metered_keep (fun ctx => metered_holdAll predicates ctx) _ _ _

/-- The visits inside predicates count, too. -/
theorem metered_holdAll : ∀ (predicates : List Expr) (ctx : Context),
    Metered fun limit => holdAll (env.under limit) predicates ctx
  | [], ctx => by
    simp only [holdAll]
    exact .pure _
  | predicate :: rest, ctx => by
    simp only [holdAll]
    refine (metered_eval predicate ctx).bind fun value => ?_
    split
    · exact metered_holdAll rest ctx
    · exact .pure _

end

theorem metered_evalFrom (first : NodeId) :
    ∀ e : Expr, Metered fun limit => evalFrom (env.under limit) first e
  | .path p => metered_evalPath env p (env.roots.map Item.node)
  | .union paths =>
    (metered_evalPaths env paths (env.roots.map Item.node)).bind fun found =>
      .pure (Value.nodes (env.sorted found))
  | .attribute test => .pure (Value.attributes (attributeValues env.doc test env.roots))
  | .binary _ _ _ => metered_eval env _ ⟨first, 1, 1⟩
  | .not _ => metered_eval env _ ⟨first, 1, 1⟩
  | .negate _ => metered_eval env _ ⟨first, 1, 1⟩
  | .call _ _ => metered_eval env _ ⟨first, 1, 1⟩
  | .number _ => metered_eval env _ ⟨first, 1, 1⟩
  | .string _ => metered_eval env _ ⟨first, 1, 1⟩

/-! ## Whole evaluations -/

/-- The number of visits of an evaluation without a limit, if that has a value. -/
def visits? (doc : Document) (roots : List NodeId) (e : Expr) : Option Nat :=
  match roots with
  | [] => none
  | first :: _ =>
      match checkKnown doc roots, evalFrom (Setting.of doc roots none) first e 0 with
      | .ok _, .ok (_, visited) => some visited
      | _, _ => none

/-- The checks before the evaluation look at no limit, so the cost is that of the evaluation. -/
theorem exists_evaluateValue_eq_refuse (doc : Document) (roots : List NodeId) (e : Expr) :
    ∃ result cost, (∀ n ∈ visits? doc roots e, cost = n) ∧
      ∀ limit, evaluateValue doc roots e limit = refuse limit cost result := by
  cases roots with
  | nil => exact ⟨.error .noRoot, 0, by simp [visits?], fun limit =>
      (refuse_of_forall_le (fun _ _ => Nat.zero_le _) _).symm⟩
  | cons first rest =>
    cases hcheck : checkKnown doc (first :: rest) with
    | error fault =>
      -- with an unknown root nothing is visited
      refine ⟨.error fault, 0, by simp [visits?, hcheck], fun limit => ?_⟩
      rw [refuse_of_forall_le fun _ _ => Nat.zero_le _, evaluateValue, hcheck]
      rfl
    | ok u =>
      obtain ⟨result, cost, hspends⟩ :=
        metered_evalFrom (Setting.of doc (first :: rest) none) first e
      refine ⟨result, cost, fun n hn => ?_, fun limit => ?_⟩
      · have hrun : evalFrom (Setting.of doc (first :: rest) none) first e 0 =
            result.map fun value => (value, 0 + cost) := hspends none 0 (by simp)
        rw [Option.mem_def, visits?, hcheck, hrun] at hn
        cases result with
        | error fault => cases hn
        | ok value =>
          cases hn
          exact (Nat.zero_add cost).symm
      · rw [evaluateValue, hcheck]
        exact hspends.run'_eq limit

/-- A limit on visits never changes an answer. Every evaluation has a number of visits, counted by
the evaluation without a limit if that has a value: under a limit from that number on it comes to
the same value or fault as without one, and under every smaller limit the limit is reached. -/
theorem exists_visits_threshold (doc : Document) (roots : List NodeId) (e : Expr) :
    ∃ visits, (∀ n ∈ visits? doc roots e, visits = n) ∧
      ∀ most, evaluateValue doc roots e (some most) =
        if visits ≤ most then evaluateValue doc roots e none else .error (.limit most) := by
  obtain ⟨result, cost, hcost, hrefuse⟩ := exists_evaluateValue_eq_refuse doc roots e
  refine ⟨cost, hcost, fun most => ?_⟩
  rw [hrefuse, hrefuse, refuse, refuse]
  by_cases hover : most < cost
  · rw [if_pos hover, if_neg (Nat.not_le.2 hover)]
  · rw [if_neg hover, if_pos (Nat.not_lt.1 hover)]

/-- Three nodes are below the document and each has its children looked at. -/
example : visits? nest [0] (.path ⟨true, [⟨.descendantOrSelf, .any, []⟩,
    ⟨.child, .any, []⟩]⟩) = some 5 := by cbv

end MarkupPath.Evaluation
