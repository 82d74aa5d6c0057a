import MarkupPath.Proofs.Evaluation.Chain
import MarkupPath.Proofs.Query.Form

/-!
# The shape of parsed expressions

Whatever tokens an expression is read from, its paths are `Regular`: each has a step, and attributes
are tested in last steps alone. Its calls are of known functions with as many arguments as these
take. Both hold at any depth (`every_of_ofTokens`), since all parts of the expression are formed.
-/

set_option autoImplicit false

namespace MarkupPath.Evaluation

open MarkupPath.Query

/-- The function is known and takes that many arguments. -/
def KnownCall (name : String) (n : Nat) : Prop := arity? name = some n

/-- Throughout the expression paths are regular and calls are of known functions. -/
abbrev Parsed (e : Expr) : Prop := e.Every Regular KnownCall

/-- The steps make a regular path, and so do those in their predicates. -/
def ParsedSteps (steps : List (Step Expr)) : Prop :=
  Regular ⟨false, steps⟩ ∧ Expr.EverySteps Regular KnownCall steps

/-- A path is parsed by its steps alone; that it is absolute makes no difference. -/
theorem parsed_path_iff {absolute : Bool} {steps : List (Step Expr)} :
    Parsed (.path ⟨absolute, steps⟩) ↔ ParsedSteps steps := by
  rw [Parsed, Expr.Every, Expr.EveryPath]
  exact Iff.rfl

/-! ## Formed expressions -/

/-- Behind an attribute nothing follows, so only the last step can test one. -/
theorem regular_of_formed {p : Path Expr} (h : p.Formed) : Regular p := by
  refine ⟨h.nonempty, fun s hs => Bool.eq_false_iff.2 fun htest => ?_⟩
  obtain ⟨before, later, hinit⟩ := List.append_of_mem hs
  have hsteps : p.steps = before ++ s :: (later ++ [p.steps.getLast h.nonempty]) := by
    conv_lhs => rw [← List.dropLast_append_getLast h.nonempty, hinit]
    rw [List.append_assoc, List.cons_append]
  -- behind an attribute nothing follows, but the last step does
  have hnone := ((h.steps before s _ hsteps).attributes htest).2.2
  exact absurd hnone (by simp)

mutual

/-- What every part of an expression satisfies holds throughout it; the recursion is the one of
`Expr.Every`. -/
theorem parsed_of_formed : ∀ e : Expr, e.FormedThroughout → Parsed e
  | .path p, h => by
    rw [Parsed, Expr.Every]
    exact everyPath_of_formed p h
  | .union paths, h => by
    rw [Parsed, Expr.Every]
    exact everyPaths_of_formed paths fun p hp part hpart => h part (.member hp hpart)
  | .binary op left right, h => by
    rw [Parsed, Expr.Every]
    exact ⟨parsed_of_formed left fun part hpart => h part (.left op hpart),
      parsed_of_formed right fun part hpart => h part (.right op hpart)⟩
  | .not arg, h => by
    rw [Parsed, Expr.Every]
    exact parsed_of_formed arg fun part hpart => h part (.not hpart)
  | .negate arg, h => by
    rw [Parsed, Expr.Every]
    exact parsed_of_formed arg fun part hpart => h part (.negate hpart)
  | .call name args, h => by
    rw [Parsed, Expr.Every]
    exact ⟨h.formed,
      everyList_of_formed args fun e he part hpart => h part (.argument name he hpart)⟩
  | .attribute _, _ | .number _, _ | .string _, _ => by
    rw [Parsed, Expr.Every]
    trivial

theorem everyPath_of_formed : ∀ p : Path Expr, (Expr.path p).FormedThroughout →
    Expr.EveryPath Regular KnownCall p
  | ⟨_, steps⟩, h => by
    rw [Expr.EveryPath]
    exact ⟨regular_of_formed h.formed,
      everySteps_of_formed steps fun _ hs _ he part hpart => h part (.predicate hs he hpart)⟩

theorem everyPaths_of_formed : ∀ paths : List (Path Expr),
    (∀ p ∈ paths, (Expr.path p).FormedThroughout) → Expr.EveryPaths Regular KnownCall paths
  | [], _ => by
    rw [Expr.EveryPaths]
    trivial
  | p :: rest, h => by
    rw [Expr.EveryPaths]
    obtain ⟨hp, hrest⟩ := List.forall_mem_cons.1 h
    exact ⟨everyPath_of_formed p hp, everyPaths_of_formed rest hrest⟩

/-- The paths inside predicates are parts of the expression like any others. -/
theorem everySteps_of_formed : ∀ steps : List (Step Expr),
    (∀ s ∈ steps, ∀ e ∈ s.predicates, e.FormedThroughout) →
      Expr.EverySteps Regular KnownCall steps
  | [], _ => by
    rw [Expr.EverySteps]
    trivial
  | ⟨_, _, predicates⟩ :: rest, h => by
    rw [Expr.EverySteps, Expr.EveryStep]
    obtain ⟨hpredicates, hrest⟩ := List.forall_mem_cons.1 h
    exact ⟨everyList_of_formed predicates hpredicates, everySteps_of_formed rest hrest⟩

theorem everyList_of_formed : ∀ es : List Expr, (∀ e ∈ es, e.FormedThroughout) →
    Expr.EveryList Regular KnownCall es
  | [], _ => by
    rw [Expr.EveryList]
    trivial
  | e :: rest, h => by
    rw [Expr.EveryList]
    obtain ⟨he, hrest⟩ := List.forall_mem_cons.1 h
    exact ⟨parsed_of_formed e he, everyList_of_formed rest hrest⟩

end

/-! ## Whole expressions -/

/-- Every expression that is read from tokens has regular paths and calls of known functions. -/
theorem every_of_ofTokens {limit : Nat} {tokens : List Token} {e : Expr}
    (h : Expr.ofTokens limit tokens = .ok e) : Parsed e :=
  parsed_of_formed e (keeps_formedThroughout.ofTokens (admits_all _ _) h)

end MarkupPath.Evaluation
