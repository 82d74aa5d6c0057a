import MarkupPath.Proofs.Query.Grammar

/-!
# The form of parsed expressions

`IsPart` says that an expression stands in another one, at any depth. Whatever tokens an expression
is read from, all its parts are `Formed`: paths have steps, and attributes are tested in last steps
alone; the step through a subtree stands right before the dot, the two dots or the attribute that it
was written with; unions have several paths, to elements all of them; calls are of known functions;
and no predicate is a bare number (`formed_of_isPart`).

`Step.Formed` is the condition on one step in front of the later ones. A rule of the grammar puts at
most two steps in front of others, so the induction over the grammar goes from the last step to the
first.
-/

set_option autoImplicit false

namespace MarkupPath.Query

/-! ## Parts -/

/-- The first expression is the second one or stands in it: as an operand, as an argument, in a
predicate, or as a path of a union. -/
inductive IsPart : Expr → Expr → Prop where
  | refl (e : Expr) : IsPart e e
  | left {part left right : Expr} (op : BinaryOp) :
      IsPart part left → IsPart part (.binary op left right)
  | right {part left right : Expr} (op : BinaryOp) :
      IsPart part right → IsPart part (.binary op left right)
  | not {part arg : Expr} : IsPart part arg → IsPart part (.not arg)
  | negate {part arg : Expr} : IsPart part arg → IsPart part (.negate arg)
  | argument {part arg : Expr} {args : List Expr} (name : String) :
      arg ∈ args → IsPart part arg → IsPart part (.call name args)
  | predicate {part predicate : Expr} {p : Path Expr} {s : Step Expr} :
      s ∈ p.steps → predicate ∈ s.predicates → IsPart part predicate → IsPart part (.path p)
  | member {part : Expr} {p : Path Expr} {paths : List (Path Expr)} :
      p ∈ paths → IsPart part (.path p) → IsPart part (.union paths)

/-! ## The conditions -/

/-- The step may stand in front of these later ones in a parsed path. -/
structure Step.Formed (s : Step Expr) (later : List (Step Expr)) : Prop where
  attributes : s.test.isAttribute = true → s.axis = .child ∧ s.predicates = [] ∧ later = []
  dots : s.axis = .self ∨ s.axis = .parent → s.test = .any
  subtree : s.axis = .descendantOrSelf → s.test = .any → s.predicates = [] ∧
    ∃ next ∈ later.head?, next.axis = .self ∨ next.axis = .parent ∨ next.test.isAttribute = true
  predicates : ∀ value, Expr.number value ∉ s.predicates

/-- The path has steps, each one may stand in front of those behind it, and a relative path does not
start with a walk through a subtree and is not one attribute alone. -/
structure Path.Formed (p : Path Expr) : Prop where
  nonempty : p.steps ≠ []
  steps : ∀ before s later, p.steps = before ++ s :: later → s.Formed later
  start : p.absolute = false → ∀ s ∈ p.steps.head?, s.axis ≠ .descendantOrSelf
  alone : p.absolute = false → ∀ s, p.steps = [s] → s.test.isAttribute = false

/-- What a path, a union or a call is like in a parsed expression, its own parts left aside. -/
def Expr.Formed : Expr → Prop
  | .path p => p.Formed
  | .union paths => 2 ≤ paths.length ∧ ∀ p ∈ paths, p.endsInAttribute = false
  | .call name args => arity? name = some args.length
  | _ => True

/-- Every part of the expression is formed like that. -/
def Expr.FormedThroughout (e : Expr) : Prop := ∀ part, IsPart part e → part.Formed

/-! ## Expressions of formed parts -/

namespace Expr.FormedThroughout

variable {e left right : Expr}

theorem formed (h : e.FormedThroughout) : e.Formed := h e (.refl e)

theorem number (value : Float) : (Expr.number value).FormedThroughout := by
  rintro part ⟨⟩
  trivial

theorem string (value : String) : (Expr.string value).FormedThroughout := by
  rintro part ⟨⟩
  trivial

theorem attributeTest (test : NameTest) : (Expr.attribute test).FormedThroughout := by
  rintro part ⟨⟩
  trivial

theorem not (h : e.FormedThroughout) : (Expr.not e).FormedThroughout := by
  intro part hpart
  cases hpart with
  | refl => trivial
  | not hpart => exact h part hpart

theorem negate (h : e.FormedThroughout) : (Expr.negate e).FormedThroughout := by
  intro part hpart
  cases hpart with
  | refl => trivial
  | negate hpart => exact h part hpart

theorem binary {op : BinaryOp} (hleft : left.FormedThroughout) (hright : right.FormedThroughout) :
    (Expr.binary op left right).FormedThroughout := by
  intro part hpart
  cases hpart with
  | refl => trivial
  | left _ hpart => exact hleft part hpart
  | right _ hpart => exact hright part hpart

/-- A call is formed by the number of its arguments. -/
theorem call {name : String} {args : List Expr} (harity : arity? name = some args.length)
    (hargs : ∀ e ∈ args, e.FormedThroughout) : (Expr.call name args).FormedThroughout := by
  intro part hpart
  cases hpart with
  | refl => exact harity
  | argument _ harg hpart => exact hargs _ harg part hpart

/-- A path is formed throughout if it is formed itself and the predicates of its steps are. -/
theorem path {p : Path Expr} (hp : p.Formed)
    (hpredicates : ∀ s ∈ p.steps, ∀ e ∈ s.predicates, e.FormedThroughout) :
    (Expr.path p).FormedThroughout := by
  intro part hpart
  cases hpart with
  | refl => exact hp
  | predicate hs he hpart => exact hpredicates _ hs _ he part hpart

/-- A union has two operands at least, none of which ends in an attribute. -/
theorem union {paths : List (Path Expr)} (hlength : 2 ≤ paths.length)
    (hpaths : ∀ p ∈ paths, (Expr.path p).FormedThroughout ∧ p.endsInAttribute = false) :
    (Expr.union paths).FormedThroughout := by
  intro part hpart
  cases hpart with
  | refl => exact ⟨hlength, fun p hp => (hpaths p hp).2⟩
  | member hp hpart => exact (hpaths _ hp).1 part hpart

/-- The comparison that a number in brackets stands for is formed as well. -/
theorem positional (h : e.FormedThroughout) : (positional e).FormedThroughout := by
  cases e with
  | number value => exact binary (call rfl (by simp)) (number value)
  | _ => exact h

end Expr.FormedThroughout

theorem positional_ne_number (e : Expr) (value : Float) : positional e ≠ .number value := by
  cases e <;> exact nofun

/-! ## Steps -/

/-- The steps may stand behind a separator in a parsed path. -/
structure FormedSteps (separator : Separator) (steps : List (Step Expr)) : Prop where
  nonempty : steps ≠ []
  formed : ∀ before s later, steps = before ++ s :: later → s.Formed later
  start : separator = .slash → ∀ s ∈ steps.head?, s.axis ≠ .descendantOrSelf
  predicates : ∀ s ∈ steps, ∀ e ∈ s.predicates, e.FormedThroughout

/-- A condition on every place of a list is one on its first place and on all later ones. -/
theorem forall_places_cons {α : Type} {C : α → List α → Prop} {x : α} {xs : List α} :
    (∀ before y later, x :: xs = before ++ y :: later → C y later) ↔
      C x xs ∧ ∀ before y later, xs = before ++ y :: later → C y later := by
  constructor
  · intro h
    exact ⟨h [] x xs rfl, fun before y later heq => h (x :: before) y later (by rw [heq]; rfl)⟩
  · rintro ⟨hfirst, hlater⟩ before y later heq
    cases before with
    | nil =>
      cases heq
      exact hfirst
    | cons z before =>
      cases heq
      exact hlater before y later rfl

section

variable {token : Bool → TokenKind → Prop} {due : Bool} {separator : Separator}
  {before : List (Step Expr)} {axis : Axis} {test : NodeTest} {predicates : List Expr}

/-- A step may stand behind a separator and in front of others, if it tests no attributes or there
are none; the walk through a subtree that comes with it goes on with that step. -/
theorem formedSteps_of_stepHead (hhead : StepHead token due separator before axis test)
    (hattribute : test.isAttribute = true → predicates = [])
    (hpredicates : ∀ e ∈ predicates, e.FormedThroughout) {later : List (Step Expr)}
    (hlast : test.isAttribute = true → later = [])
    (hlater : ∀ before s later', later = before ++ s :: later' → s.Formed later')
    (hlaterPredicates : ∀ s ∈ later, ∀ e ∈ s.predicates, e.FormedThroughout) :
    FormedSteps separator (before ++ [⟨axis, test, predicates.map positional⟩] ++ later) := by
  have hnumbers : ∀ value, Expr.number value ∉ predicates.map positional := by
    intro value hmem
    obtain ⟨e, -, he⟩ := List.mem_map.1 hmem
    exact positional_ne_number e value he
  have hmapped : ∀ e ∈ predicates.map positional, e.FormedThroughout := by
    intro e' he'
    obtain ⟨e, he, rfl⟩ := List.mem_map.1 he'
    exact (hpredicates e he).positional
  -- the step itself
  have hstep : (Step.mk axis test (predicates.map positional)).Formed later := by
    refine ⟨fun htest => ⟨?_, ?_, hlast htest⟩, ?_, ?_, hnumbers⟩
    · cases hhead <;> first | rfl | cases htest
    · rw [hattribute htest, List.map_nil]
    · intro haxis
      cases hhead with
      | dot | doubleDot => rfl
      | star | name _ => cases separator <;> simp [Separator.axis] at haxis
      | anyAttribute | namedAttribute _ => simp at haxis
    · intro haxis htest
      cases hhead <;> simp at haxis htest
  -- and the walk before it, which only a double slash writes
  have hdescent : before = [] ∨ separator = .doubleSlash ∧ before = [subtreeStep] ∧
      (axis = .self ∨ axis = .parent ∨ test.isAttribute = true) := by
    cases separator with
    | slash => cases hhead <;> exact .inl rfl
    | doubleSlash =>
      cases hhead with
      | star | name _ => exact .inl rfl
      | dot => exact .inr ⟨rfl, rfl, .inl rfl⟩
      | doubleDot => exact .inr ⟨rfl, rfl, .inr (.inl rfl)⟩
      | anyAttribute | namedAttribute _ => exact .inr ⟨rfl, rfl, .inr (.inr rfl)⟩
  obtain rfl | ⟨rfl, rfl, hnext⟩ := hdescent
  · rw [List.nil_append, List.singleton_append]
    refine ⟨List.cons_ne_nil _ _, forall_places_cons.2 ⟨hstep, hlater⟩, ?_,
      List.forall_mem_cons.2 ⟨hmapped, hlaterPredicates⟩⟩
    rintro rfl s hs
    cases hs
    cases hhead <;> simp [Separator.axis]
  · rw [List.singleton_append, List.cons_append, List.singleton_append]
    have hwalk : subtreeStep.Formed (⟨axis, test, predicates.map positional⟩ :: later) :=
      ⟨nofun, nofun, fun _ _ => ⟨rfl, _, rfl, hnext⟩, nofun⟩
    exact ⟨List.cons_ne_nil _ _,
      forall_places_cons.2 ⟨hwalk, forall_places_cons.2 ⟨hstep, hlater⟩⟩, nofun,
      List.forall_mem_cons.2 ⟨nofun, List.forall_mem_cons.2 ⟨hmapped, hlaterPredicates⟩⟩⟩

end

theorem FormedSteps.formedThroughout_absolute {separator : Separator} {steps : List (Step Expr)}
    (h : FormedSteps separator steps) : (pathExpr true steps).FormedThroughout :=
  .path ⟨h.nonempty, h.formed, nofun, nofun⟩ h.predicates

/-- A relative path of one attribute becomes that attribute, and any other one stays a path. -/
theorem FormedSteps.formedThroughout_relative {steps : List (Step Expr)}
    (h : FormedSteps .slash steps) : (pathExpr false steps).FormedThroughout := by
  unfold pathExpr
  split
  · exact .attributeTest _
  · next hnot =>
    refine .path ⟨h.nonempty, h.formed, fun _ => h.start rfl, ?_⟩ h.predicates
    rintro - ⟨axis, test, predicates⟩ rfl
    rw [Bool.eq_false_iff]
    intro htest
    -- the one attribute stands on the child axis, and the path would have been left for it
    obtain ⟨name, rfl⟩ : ∃ name, test = .attribute name := by
      match test, htest with
      | .attribute name, _ => exact ⟨name, rfl⟩
    cases ((h.formed [] _ [] rfl).attributes htest).1
    exact hnot name predicates rfl rfl

/-! ## Whole expressions -/

theorem admits_all (due : Bool) (kinds : List TokenKind) : Admits (fun _ _ => True) due kinds := by
  induction kinds generalizing due with
  | nil => trivial
  | cons k rest ih => exact ⟨trivial, ih _⟩

/-- One case for each rule of the grammar: whatever it makes of formed parts is formed itself, and
its parts are the ones it was made of. -/
theorem keeps_formedThroughout :
    Keeps (fun _ _ => True) Expr.FormedThroughout fun _ separator => FormedSteps separator where
  number _ := .number _
  string _ := .string _
  not h := h.not
  negate h := h.negate
  binary hleft hright := hleft.binary hright
  call _ harity hargs := .call harity hargs
  relative h := h.formedThroughout_relative
  absolute h := h.formedThroughout_absolute
  union h := .union (by simp) h
  lastStep hhead hattribute hpredicates := by
    rw [← List.append_nil (_ ++ _)]
    exact formedSteps_of_stepHead hhead hattribute hpredicates (fun _ => rfl) (by simp) (by simp)
  step hhead helement hpredicates hlater := by
    refine formedSteps_of_stepHead hhead ?_ hpredicates ?_ hlater.formed hlater.predicates
    · exact fun htest => absurd htest (Bool.eq_false_iff.1 helement)
    · exact fun htest => absurd htest (Bool.eq_false_iff.1 helement)

/-- Whatever tokens an expression is read from and with whatever limit, every part of it is formed:
paths, unions and calls at any depth. -/
theorem formed_of_isPart {limit : Nat} {tokens : List Token} {e part : Expr}
    (h : Expr.ofTokens limit tokens = .ok e) (hpart : IsPart part e) : part.Formed :=
  keeps_formedThroughout.ofTokens (admits_all _ _) h part hpart

/-- The tokens of `b//.[contains(@x, 'y')]`, with a walk through a subtree before a dot and a call
in a predicate of that. -/
theorem formed_callBelow :
    let test : Expr := .call "contains" [.attribute (.name "x"), .string "y"]
    let tokens : List Token := [⟨.name "b", 0⟩, ⟨.symbol .doubleSlash, 1⟩, ⟨.symbol .dot, 3⟩,
      ⟨.symbol .openBracket, 4⟩, ⟨.name "contains", 5⟩, ⟨.symbol .openParen, 13⟩,
      ⟨.symbol .atSign, 14⟩, ⟨.name "x", 15⟩, ⟨.symbol .comma, 16⟩, ⟨.string "y", 18⟩,
      ⟨.symbol .closeParen, 21⟩, ⟨.symbol .closeBracket, 22⟩, ⟨.stop, 23⟩]
    ∃ p, Expr.ofTokens 3 tokens = .ok (.path p) ∧ p.steps.length = 3 ∧ p.Formed ∧
      IsPart test (.path p) ∧ test.Formed := by
  intro test tokens
  let p : Path Expr := ⟨false, [⟨.child, .element (.name "b"), []⟩, subtreeStep,
    ⟨.self, .any, [test]⟩]⟩
  have hparse : Expr.ofTokens 3 tokens = .ok (.path p) := rfl
  have hpart : IsPart test (.path p) :=
    .predicate (s := ⟨.self, .any, [test]⟩) (by simp [p]) List.mem_cons_self (.refl test)
  exact ⟨p, hparse, rfl, formed_of_isPart hparse (.refl _), hpart, formed_of_isPart hparse hpart⟩

end MarkupPath.Query
