import MarkupPath.Evaluation.Eval

/-!
# Two runs side by side

`Visiting.Mirrors counts m m' φ P` says that a second computation does what a first one does:
started with related numbers of visits, both fail with the same error, or the first returns a value
that satisfies `P` and the second returns the image of that value under `φ`, again with related
numbers of visits. So the result of the second run is the image of the first one's
(`Mirrors.run'_eq`).

With equal counts a limit stops both runs at the same place (`mirrors_visit_of_eq`); without a limit
the counts do not matter (`mirrors_visit_of_unlimited`). As with `Visiting.Gives`, the rules follow
the way computations are put together.
-/

set_option autoImplicit false

namespace MarkupPath.Evaluation

namespace Visiting

variable {α α' β β' γ γ' : Type} {counts : Nat → Nat → Prop}

/-- The same error twice, or a value and its image, with related counts. -/
inductive Alike (counts : Nat → Nat → Prop) (φ : α → α') (P : α → Prop) :
    Except EvaluationError (α × Nat) → Except EvaluationError (α' × Nat) → Prop
  | ok {a : α} {k k' : Nat} :
      P a → counts k k' → Alike counts φ P (.ok (a, k)) (.ok (φ a, k'))
  | error (e : EvaluationError) : Alike counts φ P (.error e) (.error e)

/-- The second computation gives the image of what the first one gives. -/
def Mirrors (counts : Nat → Nat → Prop) (m : Visiting α) (m' : Visiting α') (φ : α → α')
    (P : α → Prop) : Prop :=
  ∀ k k', counts k k' → Alike counts φ P (m k) (m' k')

variable {φ : α → α'} {P Q : α → Prop} {ψ : β → β'} {R : β → Prop}

theorem Mirrors.pure {a : α} (h : P a) : Mirrors counts (pure a) (pure (φ a)) φ P :=
  fun _ _ hk => .ok h hk

theorem Mirrors.bind {m : Visiting α} {m' : Visiting α'} {f : α → Visiting β}
    {f' : α' → Visiting β'} (hm : Mirrors counts m m' φ P)
    (hf : ∀ a, P a → Mirrors counts (f a) (f' (φ a)) ψ R) :
    Mirrors counts (m >>= f) (m' >>= f') ψ R := by
  intro k k' hk
  have halike := hm k k' hk
  simp only [Bind.bind, StateT.bind]
  generalize m k = result at halike
  generalize m' k' = result' at halike
  cases halike with
  | ok ha hcounts => exact hf _ ha _ _ hcounts
  | error e => exact .error e

theorem Mirrors.mono {m : Visiting α} {m' : Visiting α'} (h : Mirrors counts m m' φ P)
    (hPQ : ∀ a, P a → Q a) : Mirrors counts m m' φ Q := by
  intro k k' hk
  have halike := h k k' hk
  generalize m k = result at halike ⊢
  generalize m' k' = result' at halike ⊢
  cases halike with
  | ok ha hcounts => exact .ok (hPQ _ ha) hcounts
  | error e => exact .error e

/-- Computations over a list and over its image give a list and its image. -/
theorem Mirrors.mapM {g : γ → γ'} {f : γ → Visiting β} {f' : γ' → Visiting β'} {items : List γ}
    (h : ∀ x ∈ items, Mirrors counts (f x) (f' (g x)) ψ R) :
    Mirrors counts (items.mapM f) ((items.map g).mapM f') (List.map ψ) fun bs => ∀ b ∈ bs, R b := by
  induction items with
  | nil => exact .pure fun _ => (nomatch ·)
  | cons x rest ih =>
    rw [List.map_cons, List.mapM_cons, List.mapM_cons]
    refine (h x List.mem_cons_self).bind fun b hb => ?_
    refine (ih fun y hy => h y (List.mem_cons_of_mem _ hy)).bind fun bs hbs => ?_
    exact .pure (φ := List.map ψ) (List.forall_mem_cons.2 ⟨hb, hbs⟩)

/-- A lifted result mirrors itself, if its value is its own image. -/
theorem Mirrors.lift {result : Except EvaluationError α} {φ : α → α}
    (h : ∀ a, result = .ok a → φ a = a ∧ P a) :
    Mirrors counts (liftM result : Visiting α) (liftM result) φ P := by
  intro k k' hk
  cases result with
  | ok a =>
    obtain ⟨hfix, hP⟩ := h a rfl
    have halike : Alike counts φ P (.ok (a, k)) (.ok (φ a, k')) := .ok hP hk
    rwa [hfix] at halike
  | error e => exact .error e

/-- The result of the second run is the image of the first one's. -/
theorem Mirrors.run'_eq {m : Visiting α} {m' : Visiting α'} (h : Mirrors counts m m' φ P)
    (k k' : Nat) (hk : counts k k') : m'.run' k' = (m.run' k).map φ := by
  have halike := h k k' hk
  simp only [StateT.run']
  generalize m k = result at halike ⊢
  generalize m' k' = result' at halike ⊢
  cases halike <;> rfl

end Visiting

open Visiting

variable {env env' : Setting}

/-- Runs that have visited equally many nodes go over the same limit together. -/
theorem mirrors_visit_of_eq (hlimit : env'.limit = env.limit) (count : Nat) :
    Mirrors (· = ·) (visit env count) (visit env' count) id fun _ => True := by
  rintro k _ rfl
  have heq : visit env' count = visit env count := by rw [visit, visit, hlimit]
  rw [heq]
  generalize visit env count k = result
  cases result with
  | ok entry => exact .ok trivial rfl
  | error e => exact .error e

/-- Without limits visits never fail, whatever their counts. -/
theorem mirrors_visit_of_unlimited (h : env.limit = none) (h' : env'.limit = none) (count : Nat) :
    Mirrors (fun _ _ => True) (visit env count) (visit env' count) id fun _ => True := by
  intro k k' _
  simp only [visit, h, h']
  exact .ok trivial trivial

end MarkupPath.Evaluation
