import MarkupPath.Evaluation.Eval

/-!
# Results of visiting computations

`Visiting.Gives fault m P` says that, whatever number of visits a computation starts with, the value
it returns satisfies `P`, or the error it fails with satisfies `fault`. The rules below follow the
way computations are put together, so a proof about an evaluation is a proof about its parts.
-/

set_option autoImplicit false

namespace MarkupPath.Evaluation

namespace Visiting

variable {α β : Type} {fault : EvaluationError → Prop} {P Q : α → Prop} {R : β → Prop}

/-- The value satisfies the one condition, or the error the other. -/
def Outcome (fault : EvaluationError → Prop) (P : α → Prop) : Except EvaluationError α → Prop
  | .ok a => P a
  | .error e => fault e

/-- Every value of the computation satisfies the one condition, and every error the other. -/
def Gives (fault : EvaluationError → Prop) (m : Visiting α) (P : α → Prop) : Prop :=
  ∀ k, Outcome fault P (m.run' k)

theorem Gives.pure {a : α} (ha : P a) : Gives fault (pure a) P := fun _ => ha

theorem Gives.bind {m : Visiting α} {f : α → Visiting β} (hm : Gives fault m P)
    (hf : ∀ a, P a → Gives fault (f a) R) : Gives fault (m >>= f) R := by
  intro k
  have hk : Outcome fault P ((m k).map (·.1)) := hm k
  cases hrun : m k with
  | error e =>
    rw [hrun] at hk
    have heq : (m >>= f).run' k = .error e := by
      simp only [Bind.bind, StateT.bind, StateT.run', hrun, Except.bind]
      rfl
    rw [heq]
    exact hk
  | ok result =>
    rw [hrun] at hk
    have heq : (m >>= f).run' k = (f result.1).run' result.2 := by
      simp only [Bind.bind, StateT.bind, StateT.run', hrun, Except.bind]
    rw [heq]
    exact hf result.1 hk result.2

theorem Gives.mono {m : Visiting α} (h : Gives fault m P) (hPQ : ∀ a, P a → Q a) :
    Gives fault m Q := by
  intro k
  have hk := h k
  cases hrun : m.run' k with
  | ok a =>
    rw [hrun] at hk
    exact hPQ a hk
  | error e =>
    rw [hrun] at hk
    exact hk

/-- Two facts about the values of one computation hold together. -/
theorem Gives.and {fault' : EvaluationError → Prop} {m : Visiting α} (hP : Gives fault m P)
    (hQ : Gives fault' m Q) : Gives fault' m fun a => P a ∧ Q a := by
  intro k
  have hPk := hP k
  have hQk := hQ k
  cases hrun : m.run' k with
  | ok a =>
    rw [hrun] at hPk hQk
    exact ⟨hPk, hQk⟩
  | error e =>
    rw [hrun] at hQk
    exact hQk

/-- A computation over a list returns one value for each item. -/
theorem Gives.mapM {γ : Type} {f : γ → Visiting β} {S : γ → β → Prop} {items : List γ}
    (h : ∀ x ∈ items, Gives fault (f x) (S x)) :
    Gives fault (items.mapM f) fun values =>
      (∀ x ∈ items, ∃ b ∈ values, S x b) ∧ ∀ b ∈ values, ∃ x ∈ items, S x b := by
  induction items with
  | nil => exact .pure ⟨fun _ => (nomatch ·), fun _ => (nomatch ·)⟩
  | cons x rest ih =>
    rw [List.mapM_cons]
    refine (h x List.mem_cons_self).bind fun b hb => ?_
    refine (ih fun y hy => h y (List.mem_cons_of_mem _ hy)).bind fun bs hbs => .pure ⟨?_, ?_⟩
    · refine List.forall_mem_cons.2 ⟨⟨b, List.mem_cons_self, hb⟩, fun y hy => ?_⟩
      obtain ⟨c, hc, hyc⟩ := hbs.1 y hy
      exact ⟨c, List.mem_cons_of_mem _ hc, hyc⟩
    · refine List.forall_mem_cons.2 ⟨⟨x, List.mem_cons_self, hb⟩, fun c hc => ?_⟩
      obtain ⟨y, hy, hyc⟩ := hbs.2 c hc
      exact ⟨y, List.mem_cons_of_mem _ hy, hyc⟩

/-- A lifted result is returned or fails as it is. -/
theorem Gives.lift {result : Except EvaluationError α} (hok : ∀ a, result = .ok a → P a)
    (herror : ∀ e, result = .error e → fault e) : Gives fault (liftM result : Visiting α) P := by
  intro k
  cases result with
  | ok a => exact hok a rfl
  | error e => exact herror e rfl

end Visiting

open Visiting

/-- Counting visits fails only at the limit. -/
theorem gives_visit {env : Setting} {fault : EvaluationError → Prop}
    (hlimit : ∀ most, env.limit = some most → fault (.limit most)) (count : Nat) :
    Gives fault (visit env count) fun _ => True := by
  rw [visit]
  refine .bind (P := fun _ => True) (fun _ => trivial) fun visited _ => ?_
  refine .bind (P := fun _ => True) (fun _ => trivial) fun _ _ => ?_
  split
  · next most hmost =>
    split
    · exact fun _ => hlimit most hmost
    · exact .pure trivial
  · exact .pure trivial

end MarkupPath.Evaluation
