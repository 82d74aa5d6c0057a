import MarkupPath.Query.Expr

/-!
# Properties of all parts of an expression

`Expr.Every onPath onCall e` says that every path in an expression satisfies the one condition and
every call the other, at any depth: in operands, in arguments and in predicates of steps.
-/

set_option autoImplicit false

namespace MarkupPath.Query

section

variable (onPath : Path Expr → Prop) (onCall : String → Nat → Prop)

mutual

/-- Every path and every call in the expression satisfies its condition. -/
def Expr.Every : Expr → Prop
  | .path p => Expr.EveryPath p
  | .union paths => Expr.EveryPaths paths
  | .attribute _ => True
  | .binary _ left right => Expr.Every left ∧ Expr.Every right
  | .not arg => Expr.Every arg
  | .negate arg => Expr.Every arg
  | .call name args => onCall name args.length ∧ Expr.EveryList args
  | .number _ => True
  | .string _ => True

/-- The path satisfies its condition, and so does every part of its predicates. -/
def Expr.EveryPath : Path Expr → Prop
  | ⟨absolute, steps⟩ => onPath ⟨absolute, steps⟩ ∧ Expr.EverySteps steps

/-- `EveryPath` of all members. -/
def Expr.EveryPaths : List (Path Expr) → Prop
  | [] => True
  | p :: rest => Expr.EveryPath p ∧ Expr.EveryPaths rest

/-- `Every` of all predicates. -/
def Expr.EverySteps : List (Step Expr) → Prop
  | [] => True
  | s :: rest => Expr.EveryStep s ∧ Expr.EverySteps rest

/-- `Every` of all predicates of the step. -/
def Expr.EveryStep : Step Expr → Prop
  | ⟨_, _, predicates⟩ => Expr.EveryList predicates

/-- `Every` of all members. -/
def Expr.EveryList : List Expr → Prop
  | [] => True
  | e :: rest => Expr.Every e ∧ Expr.EveryList rest

end

end

section

variable {onPath : Path Expr → Prop} {onCall : String → Nat → Prop}

/-! ## Conditions without content -/

mutual

/-- Conditions that hold of all paths and of all calls hold throughout every expression. -/
theorem Expr.every_of_forall (hpath : ∀ p, onPath p) (hcall : ∀ name n, onCall name n) :
    ∀ e : Expr, e.Every onPath onCall
  | .path p => by
    rw [Expr.Every]
    exact Expr.everyPath_of_forall hpath hcall p
  | .union paths => by
    rw [Expr.Every]
    exact Expr.everyPaths_of_forall hpath hcall paths
  | .binary _ left right => by
    rw [Expr.Every]
    exact ⟨Expr.every_of_forall hpath hcall left, Expr.every_of_forall hpath hcall right⟩
  | .not arg | .negate arg => by
    rw [Expr.Every]
    exact Expr.every_of_forall hpath hcall arg
  | .call name args => by
    rw [Expr.Every]
    exact ⟨hcall name args.length, Expr.everyList_of_forall hpath hcall args⟩
  | .attribute _ | .number _ | .string _ => by
    rw [Expr.Every]
    trivial

theorem Expr.everyPath_of_forall (hpath : ∀ p, onPath p) (hcall : ∀ name n, onCall name n) :
    ∀ p : Path Expr, Expr.EveryPath onPath onCall p
  | ⟨absolute, steps⟩ => by
    rw [Expr.EveryPath]
    exact ⟨hpath _, Expr.everySteps_of_forall hpath hcall steps⟩

theorem Expr.everyPaths_of_forall (hpath : ∀ p, onPath p) (hcall : ∀ name n, onCall name n) :
    ∀ paths : List (Path Expr), Expr.EveryPaths onPath onCall paths
  | [] => by
    rw [Expr.EveryPaths]
    trivial
  | p :: rest => by
    rw [Expr.EveryPaths]
    exact ⟨Expr.everyPath_of_forall hpath hcall p, Expr.everyPaths_of_forall hpath hcall rest⟩

theorem Expr.everySteps_of_forall (hpath : ∀ p, onPath p) (hcall : ∀ name n, onCall name n) :
    ∀ steps : List (Step Expr), Expr.EverySteps onPath onCall steps
  | [] => by
    rw [Expr.EverySteps]
    trivial
  | s :: rest => by
    rw [Expr.EverySteps]
    exact ⟨Expr.everyStep_of_forall hpath hcall s, Expr.everySteps_of_forall hpath hcall rest⟩

theorem Expr.everyStep_of_forall (hpath : ∀ p, onPath p) (hcall : ∀ name n, onCall name n) :
    ∀ s : Step Expr, Expr.EveryStep onPath onCall s
  | ⟨_, _, predicates⟩ => by
    rw [Expr.EveryStep]
    exact Expr.everyList_of_forall hpath hcall predicates

theorem Expr.everyList_of_forall (hpath : ∀ p, onPath p) (hcall : ∀ name n, onCall name n) :
    ∀ es : List Expr, Expr.EveryList onPath onCall es
  | [] => by
    rw [Expr.EveryList]
    trivial
  | e :: rest => by
    rw [Expr.EveryList]
    exact ⟨Expr.every_of_forall hpath hcall e, Expr.everyList_of_forall hpath hcall rest⟩

end

end

end MarkupPath.Query
