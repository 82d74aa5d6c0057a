import MarkupPath.Query.Expr.Calls

/-!
# What is recorded is what is read

The record of the calls of a part of the grammar has the outcome that this part has, unless more
calls are made than there is fuel for (`Recorded.Computes`). The part may itself be given more fuel
than its record (`Recorded.Computes.At.of_le`), so wherever the calls are few, more fuel makes no
difference either.
-/

set_option autoImplicit false

namespace MarkupPath.Query

/-- The fault that operands nest deeper than a limit, somewhere in the expression. -/
def IsTooDeep {α : Type} (limit : Nat) (result : Except SyntaxError α) : Prop :=
  ∃ offset, result = .error ⟨.depth limit, offset⟩

/-! ## Outcomes of records -/

namespace Recorded

variable {α β : Type}

/-- Recording a call in front of what is read behind it puts the call first. -/
theorem asCall_bind {part : GrammarPart} {s : TokenStream} {m : Recorded (α × TokenStream)}
    {f : α × TokenStream → Recorded β} :
    m.asCall part s >>= f =
      ⟨⟨part, s, m.reached⟩ :: (m >>= f).calls, (m >>= f).outcome⟩ := by
  obtain ⟨calls, _ | e | r⟩ := m <;> rfl

/-- The outcome is this one; or a limit lower than the other one has refused it; or fuel has run
out, and then more calls than `fuel` were made. -/
def Computes (limit limit' fuel : Nat) (m : Recorded α) (r : Except SyntaxError α) : Prop :=
  m.outcome = some r ∨ (limit < limit' ∧ ∃ o, m.outcome = some o ∧ IsTooDeep limit o) ∨
    (m.outcome = none ∧ fuel < m.calls.length)

namespace Computes

variable {limit limit' fuel : Nat} {m : Recorded α} {r : Except SyntaxError α}

theorem pure (a : α) : Computes limit limit' fuel (Pure.pure a) (Pure.pure a) := .inl rfl

theorem lift : Computes limit limit' fuel (Recorded.lift r) r := .inl rfl

/-- Only where an operand is entered the limit is looked at. -/
theorem enter (s : TokenStream) (hlimit : limit ≤ limit') :
    Computes limit limit' fuel (Recorded.lift (s.enter limit)) (s.enter limit') := by
  by_cases hdeep : s.depth + 1 > limit
  · -- too deep for the lower limit, which is the other one or is less
    obtain rfl | hless := Nat.eq_or_lt_of_le hlimit
    · exact .lift
    · exact .inr (.inl ⟨hless, _, rfl, s.peek.offset, if_pos hdeep⟩)
  · left
    rw [Recorded.lift, TokenStream.enter, TokenStream.enter, if_neg hdeep, if_neg (by omega)]

/-- A limit that has refused the first part or fuel that has run out in it stays so, whatever is
read behind. -/
theorem bind {f : α → Recorded β} {g : α → Except SyntaxError β}
    (hm : Computes limit limit' fuel m r) (hf : ∀ a, Computes limit limit' fuel (f a) (g a)) :
    Computes limit limit' fuel (m >>= f) (r >>= g) := by
  obtain ⟨calls, outcome⟩ := m
  obtain rfl | ⟨hless, _, rfl, offset, rfl⟩ | ⟨rfl, hlength⟩ := hm
  · cases r with
    | error e => exact .inl rfl
    | ok a =>
      obtain hsome | hdeep | ⟨hnone, hlength⟩ := hf a
      · exact .inl hsome
      · exact .inr (.inl hdeep)
      · -- the calls of both parts count, so those of the second are enough
        refine .inr (.inr ⟨hnone, Nat.lt_of_lt_of_le hlength ?_⟩)
        exact List.length_append ▸ Nat.le_add_left _ _
  · exact .inr (.inl ⟨hless, _, rfl, offset, rfl⟩)
  · exact .inr (.inr ⟨rfl, hlength⟩)

theorem bind_lift {f : α → Recorded β} {g : α → Except SyntaxError β}
    (hf : ∀ a, Computes limit limit' fuel (f a) (g a)) :
    Computes limit limit' fuel (liftM r >>= f) (r >>= g) :=
  lift.bind hf

/-- What is read behind a call may make one call less. -/
theorem bind_call {m : Recorded (α × TokenStream)} {r : Except SyntaxError (α × TokenStream)}
    {part : GrammarPart} {s : TokenStream} {f : α × TokenStream → Recorded β}
    {g : α × TokenStream → Except SyntaxError β} (hm : Computes limit limit' fuel m r)
    (hf : ∀ a, Computes limit limit' fuel (f a) (g a)) :
    Computes limit limit' (fuel + 1) (m.asCall part s >>= f) (r >>= g) := by
  rw [asCall_bind]
  obtain hsome | hdeep | ⟨hnone, hlength⟩ := hm.bind hf
  · exact .inl hsome
  · exact .inr (.inl hdeep)
  · exact .inr (.inr ⟨hnone, Nat.succ_lt_succ hlength⟩)

/-- Read as one call, a part has made one call more, so it may have had one unit of fuel more. -/
theorem asCall {m : Recorded (α × TokenStream)} {r : Except SyntaxError (α × TokenStream)}
    (part : GrammarPart) (s : TokenStream) (hm : Computes limit limit' fuel m r) :
    Computes limit limit' (fuel + 1) (m.asCall part s) r := by
  obtain hsome | hdeep | ⟨hnone, hlength⟩ := hm
  · exact .inl hsome
  · exact .inr (.inl hdeep)
  · exact .inr (.inr ⟨hnone, Nat.succ_lt_succ hlength⟩)

/-- Fuel that has run out would have been spent on more calls than there are. -/
theorem outcome_eq {m : Recorded α} (hm : Computes limit limit fuel m r)
    (hfew : m.calls.length ≤ fuel) : m.outcome = some r := by
  obtain hsome | ⟨hless, -⟩ | ⟨-, hmany⟩ := hm
  · exact hsome
  · exact absurd hless (Nat.lt_irrefl _)
  · exact absurd hfew (Nat.not_le_of_lt hmany)

/-- Without fuel the call itself is already one too many. -/
theorem unfinished {r : Except SyntaxError (α × TokenStream)} (part : GrammarPart)
    (s : TokenStream) : Computes limit limit' 0 (Recorded.unfinished.asCall part s) r :=
  .inr (.inr ⟨rfl, Nat.succ_pos _⟩)

end Computes

end Recorded

open Recorded (Computes)

/-- A step with its predicates, and the test of it. -/
def parseStep (limit fuel : Nat) (axis : Axis) (s : TokenStream) :
    Except SyntaxError ((List (Step Expr) × NodeTest) × TokenStream) := do
  let (before, axis, test, s₁) ← stepStart axis s
  let (predicates, s₂) ← parsePredicates limit fuel test s₁
  return ((before ++ [⟨axis, test, predicates⟩], test), s₂)

/-- The grammar reads a step and goes on behind it; the record has a call for the step alone. -/
theorem parseSteps_succ (limit fuel : Nat) (axis : Axis) (s : TokenStream) :
    parseSteps limit (fuel + 1) axis s = do
      let ((steps, test), s₂) ← parseStep limit fuel axis s
      match separatorAxis? s₂.peek.kind with
      | none => return (steps, s₂)
      | some next =>
          if test.isAttribute then s₂.fault .attributeInside
          else
            let (later, s₃) ← parseSteps limit fuel next s₂.advance
            return (steps ++ later, s₃) := by
  rw [parseSteps, parseStep]
  cases stepStart axis s with
  | error e => rfl
  | ok start =>
    obtain ⟨before, axis, test, s₁⟩ := start
    simp only [bind, Except.bind, pure, Except.pure]
    cases parsePredicates limit fuel test s₁ <;> rfl

/-- The record of each part of the grammar computes what that part reads with fuel of its own. -/
structure Recorded.Computes.At (limit limit' fuel fuel' : Nat) : Prop where
  union (s : TokenStream) :
    Computes limit limit' fuel (recordUnion limit fuel s) (parseUnion limit' fuel' s)
  paths (s : TokenStream) :
    Computes limit limit' fuel (recordPaths limit fuel s) (parsePaths limit' fuel' s)
  binary (power : Nat) (s : TokenStream) :
    Computes limit limit' fuel (recordBinary limit fuel power s) (parseBinary limit' fuel' power s)
  operators (power : Nat) (left : Expr) (s : TokenStream) :
    Computes limit limit' fuel (recordOperators limit fuel power left s)
      (parseOperators limit' fuel' power left s)
  signed (s : TokenStream) :
    Computes limit limit' fuel (recordPrefix limit fuel s) (parsePrefix limit' fuel' s)
  primary (s : TokenStream) :
    Computes limit limit' fuel (recordPrimary limit fuel s) (parsePrimary limit' fuel' s)
  call (name : String) (s : TokenStream) :
    Computes limit limit' fuel (recordCall limit fuel name s) (parseCall limit' fuel' name s)
  arguments (s : TokenStream) :
    Computes limit limit' fuel (recordArguments limit fuel s) (parseArguments limit' fuel' s)
  path (s : TokenStream) :
    Computes limit limit' fuel (recordPath limit fuel s) (parsePath limit' fuel' s)
  steps (axis : Axis) (s : TokenStream) :
    Computes limit limit' fuel (recordSteps limit fuel axis s) (parseSteps limit' fuel' axis s)
  predicates (test : NodeTest) (s : TokenStream) :
    Computes limit limit' fuel (recordPredicates limit fuel test s)
      (parsePredicates limit' fuel' test s)

namespace Recorded.Computes.At

variable {limit limit' : Nat}

theorem zero (fuel' : Nat) : Computes.At limit limit' 0 fuel' where
  union s := by rw [recordUnion]; exact .unfinished _ s
  paths s := by rw [recordPaths]; exact .unfinished _ s
  binary _ s := by rw [recordBinary]; exact .unfinished _ s
  operators _ _ s := by rw [recordOperators]; exact .unfinished _ s
  signed s := by rw [recordPrefix]; exact .unfinished _ s
  primary s := by rw [recordPrimary]; exact .unfinished _ s
  call _ s := by rw [recordCall]; exact .unfinished _ s
  arguments s := by rw [recordArguments]; exact .unfinished _ s
  path s := by rw [recordPath]; exact .unfinished _ s
  steps _ s := by rw [recordSteps]; exact .unfinished _ s
  predicates _ s := by rw [recordPredicates]; exact .unfinished _ s

variable {fuel fuel' : Nat} (h : Computes.At limit limit' fuel fuel') (s : TokenStream)
include h

/-- The record follows the grammar bind by bind, here and in the cases below; they differ only in
the parts that are called. -/
theorem union_succ :
    Computes limit limit' (fuel + 1) (recordUnion limit (fuel + 1) s)
      (parseUnion limit' (fuel' + 1) s) := by
  rw [recordUnion, parseUnion]
  refine .asCall _ s ((h.binary _ s).bind ?_)
  rintro ⟨first, s₁⟩
  dsimp only
  split
  · refine .bind_lift fun path => (h.paths s₁).bind ?_
    rintro ⟨paths, s₂⟩
    exact .pure _
  · exact .pure _

theorem paths_succ :
    Computes limit limit' (fuel + 1) (recordPaths limit (fuel + 1) s)
      (parsePaths limit' (fuel' + 1) s) := by
  rw [recordPaths, parsePaths]
  refine .asCall _ s ?_
  split
  · refine (h.binary _ s.advance).bind ?_
    rintro ⟨operand, s₁⟩
    refine .bind_lift fun path => (h.paths s₁).bind ?_
    rintro ⟨paths, s₂⟩
    exact .pure _
  · exact .pure _

/-- The only part that looks at a limit: the lower limit may refuse what the higher one lets
pass. -/
theorem binary_succ (hlimit : limit ≤ limit') (power : Nat) :
    Computes limit limit' (fuel + 1) (recordBinary limit (fuel + 1) power s)
      (parseBinary limit' (fuel' + 1) power s) := by
  rw [recordBinary, parseBinary]
  refine .asCall _ s (.bind (.enter s hlimit) fun inside => (h.signed inside).bind ?_)
  rintro ⟨left, s₁⟩
  refine (h.operators power left s₁).bind ?_
  rintro ⟨e, s₂⟩
  exact .pure _

/-- The loop goes on with itself and adds nothing to what its next turn returns. -/
theorem operators_succ (power : Nat) (left : Expr) :
    Computes limit limit' (fuel + 1) (recordOperators limit (fuel + 1) power left s)
      (parseOperators limit' (fuel' + 1) power left s) := by
  rw [recordOperators, parseOperators]
  refine .asCall _ s ?_
  cases binaryOp? s.peek.kind with
  | none => exact .pure _
  | some op =>
    dsimp only
    split
    · exact .pure _
    · refine (h.binary _ s.advance).bind ?_
      rintro ⟨right, s₁⟩
      exact h.operators power _ s₁

theorem signed_succ :
    Computes limit limit' (fuel + 1) (recordPrefix limit (fuel + 1) s)
      (parsePrefix limit' (fuel' + 1) s) := by
  rw [recordPrefix, parsePrefix]
  refine .asCall _ s ?_
  split
  · refine (h.binary _ s.advance).bind ?_
    rintro ⟨arg, s₁⟩
    exact .pure _
  · split
    · refine (h.binary _ s.advance).bind ?_
      rintro ⟨arg, s₁⟩
      exact .pure _
    · exact h.primary s

/-- Split by the token that stands next, which decides on the part that is called. -/
theorem primary_succ :
    Computes limit limit' (fuel + 1) (recordPrimary limit (fuel + 1) s)
      (parsePrimary limit' (fuel' + 1) s) := by
  rw [recordPrimary, parsePrimary]
  refine .asCall _ s ?_
  generalize s.peek.kind = k
  cases k with
  | number value => exact .pure _
  | string value => exact .pure _
  | stop => exact .lift
  | name name =>
    dsimp only
    split
    · refine (h.call name s).bind ?_
      rintro ⟨args, s₁⟩
      exact .pure _
    · exact h.path s
  | symbol x =>
    cases x with
    | openParen =>
      refine (h.union s.advance).bind ?_
      rintro ⟨e, s₁⟩
      exact .bind_lift fun s₂ => .pure _
    | not =>
      refine (h.call "not" s).bind ?_
      rintro ⟨args, s₁⟩
      dsimp only
      cases args.getLast? with
      | some arg => exact .pure _
      | none => exact .lift
    -- a path starts with the other symbol, or nothing does
    | _ => first | exact h.path s | exact .lift

/-- Both ways into the arguments end in the same two checks. -/
theorem call_succ (name : String) :
    Computes limit limit' (fuel + 1) (recordCall limit (fuel + 1) name s)
      (parseCall limit' (fuel' + 1) name s) := by
  rw [recordCall, parseCall]
  refine .asCall _ s (.bind_lift fun inside => ?_)
  dsimp only
  split
  · refine .bind (.pure ([], inside)) ?_
    rintro ⟨args, s₁⟩
    exact .bind_lift fun s₂ => .bind_lift fun args => .pure _
  · refine (h.arguments inside).bind ?_
    rintro ⟨args, s₁⟩
    exact .bind_lift fun s₂ => .bind_lift fun args => .pure _

theorem arguments_succ :
    Computes limit limit' (fuel + 1) (recordArguments limit (fuel + 1) s)
      (parseArguments limit' (fuel' + 1) s) := by
  rw [recordArguments, parseArguments]
  refine .asCall _ s ((h.union s).bind ?_)
  rintro ⟨arg, s₁⟩
  dsimp only
  split
  · refine (h.arguments s₁.advance).bind ?_
    rintro ⟨args, s₂⟩
    exact .pure _
  · exact .pure _

theorem path_succ :
    Computes limit limit' (fuel + 1) (recordPath limit (fuel + 1) s)
      (parsePath limit' (fuel' + 1) s) := by
  rw [recordPath, parsePath]
  refine .asCall _ s (.bind_lift ?_)
  rintro ⟨absolute, axis, s₁⟩
  refine (h.steps axis s₁).bind ?_
  rintro ⟨steps, s₂⟩
  exact .pure _

theorem predicates_succ (test : NodeTest) :
    Computes limit limit' (fuel + 1) (recordPredicates limit (fuel + 1) test s)
      (parsePredicates limit' (fuel' + 1) test s) := by
  rw [recordPredicates, parsePredicates]
  refine .asCall _ s ?_
  split
  · split
    · exact .lift
    · refine (h.union s.advance).bind ?_
      rintro ⟨predicate, s₁⟩
      refine .bind_lift fun s₂ => (h.predicates test s₂).bind ?_
      rintro ⟨later, s₃⟩
      exact .pure _
  · exact .pure _

/-- Only the step is a call here, not the loop over the steps; the steps behind it may make one call
less. -/
theorem steps_succ (axis : Axis) :
    Computes limit limit' (fuel + 1) (recordSteps limit (fuel + 1) axis s)
      (parseSteps limit' (fuel' + 1) axis s) := by
  rw [recordSteps, parseSteps_succ, parseStep]
  refine .bind_call ?_ ?_
  · refine .bind_lift ?_
    rintro ⟨before, axis, test, s₁⟩
    refine (h.predicates test s₁).bind ?_
    rintro ⟨predicates, s₂⟩
    exact .pure _
  · rintro ⟨⟨steps, test⟩, s₂⟩
    dsimp only
    cases separatorAxis? s₂.peek.kind with
    | none => exact .pure _
    | some next =>
      dsimp only
      split
      · exact .lift
      · refine (h.steps next s₂.advance).bind ?_
        rintro ⟨later, s₃⟩
        exact .pure _

omit h in
/-- The induction is on the fuel of the record. What is recorded ends by then or has made too many
calls, so the other fuel may be any larger one. -/
theorem of_le (hlimit : limit ≤ limit') (hle : fuel ≤ fuel') :
    Computes.At limit limit' fuel fuel' := by
  induction fuel generalizing fuel' with
  | zero => exact zero fuel'
  | succ fuel ih =>
    obtain ⟨more, rfl⟩ := Nat.exists_eq_add_of_lt hle
    have ih := ih (Nat.le_add_right fuel more)
    exact {
      union := ih.union_succ
      paths := ih.paths_succ
      binary := fun power s => ih.binary_succ s hlimit power
      operators := fun power left s => ih.operators_succ s power left
      signed := ih.signed_succ
      primary := ih.primary_succ
      call := fun name s => ih.call_succ s name
      arguments := ih.arguments_succ
      path := ih.path_succ
      steps := fun axis s => ih.steps_succ s axis
      predicates := fun test s => ih.predicates_succ s test }

end Recorded.Computes.At

end MarkupPath.Query
