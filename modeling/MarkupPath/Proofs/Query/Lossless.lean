import MarkupPath.Proofs.Query.Derivation
import Mathlib.Data.List.Forall2

/-!
# The grammar loses no token

`ReadOff` relates an expression to the tokens that it is written with, from left to right and
without parentheses. It leaves two things open, which are not told apart in the expression: the walk
through a subtree that a double slash stands for before a dot, two dots or an attribute is written
with that step, and the predicate of a position may be written as its number.

What is derived passes, besides parentheses, just the tokens that are read off it
(`Derives.passes`), so an expression is read off all tokens that it was read from
(`readOff_of_ofTokens`).
-/

set_option autoImplicit false

namespace MarkupPath.Query

/-! ## Reading tokens off expressions -/

/-- The separator that is written before a step along the axis. -/
def Axis.separatorSymbol : Axis → Symbol
  | .descendantOrSelf => .doubleSlash
  | _ => .slash

/-- Predicates as they are written, each in brackets. -/
def bracketed (parts : List (List TokenKind)) : List TokenKind :=
  parts.flatMap fun ks => .symbol .openBracket :: (ks ++ [.symbol .closeBracket])

mutual

/-- The tokens are read off the expression from left to right. -/
inductive ReadOff : Expr → List TokenKind → Prop where
  | number (value : Float) : ReadOff (.number value) [.number value]
  | string (value : String) : ReadOff (.string value) [.string value]
  | attributeTest (test : NameTest) : ReadOff (.attribute test) [.symbol .atSign, test.kind]
  | not {arg : Expr} {ks : List TokenKind} :
      ReadOff arg ks → ReadOff (.not arg) (.symbol .not :: ks)
  | negate {arg : Expr} {ks : List TokenKind} :
      ReadOff arg ks → ReadOff (.negate arg) (.symbol .minus :: ks)
  | binary {op : BinaryOp} {left right : Expr} {ks ks' : List TokenKind} :
      ReadOff left ks → ReadOff right ks' →
        ReadOff (.binary op left right) (ks ++ .symbol op.symbol :: ks')
  | call {name : String} {args : List Expr} {parts : List (List TokenKind)} :
      List.Forall₂ ReadOff args parts →
        ReadOff (.call name args) (.name name :: [.symbol .comma].intercalate parts)
  | path {p : Path Expr} {ks : List TokenKind} : ReadOffPath p ks → ReadOff (.path p) ks
  | union {paths : List (Path Expr)} {parts : List (List TokenKind)} :
      List.Forall₂ ReadOffPath paths parts →
        ReadOff (.union paths) ([.symbol .pipe].intercalate parts)

/-- The tokens are read off the path. A relative path is written without its first slash. -/
inductive ReadOffPath : Path Expr → List TokenKind → Prop where
  | absolute {steps : List (Step Expr)} {ks : List TokenKind} :
      ReadOffSteps steps ks → ReadOffPath ⟨true, steps⟩ ks
  | relative {steps : List (Step Expr)} {ks : List TokenKind} :
      ReadOffSteps steps (.symbol .slash :: ks) → ReadOffPath ⟨false, steps⟩ ks

/-- The tokens are read off the steps, each behind its separator; the walk through a subtree before
a step that is no name is the double slash of that step. -/
inductive ReadOffSteps : List (Step Expr) → List TokenKind → Prop where
  | nil : ReadOffSteps [] []
  | step {s : Step Expr} {later : List (Step Expr)} {ks ks' : List TokenKind} :
      ReadOffStep s ks → ReadOffSteps later ks' →
        ReadOffSteps (s :: later) (.symbol s.axis.separatorSymbol :: (ks ++ ks'))
  | subtree {s : Step Expr} {later : List (Step Expr)} {ks ks' : List TokenKind} :
      (∀ name, s.test ≠ .element name) → ReadOffStep s ks → ReadOffSteps later ks' →
        ReadOffSteps (subtreeStep :: s :: later) (.symbol .doubleSlash :: (ks ++ ks'))

/-- The tokens are read off the step, its separator left aside. -/
inductive ReadOffStep : Step Expr → List TokenKind → Prop where
  | dot {predicates : List Expr} {parts : List (List TokenKind)} :
      List.Forall₂ ReadOffPredicate predicates parts →
        ReadOffStep ⟨.self, .any, predicates⟩ (.symbol .dot :: bracketed parts)
  | doubleDot {predicates : List Expr} {parts : List (List TokenKind)} :
      List.Forall₂ ReadOffPredicate predicates parts →
        ReadOffStep ⟨.parent, .any, predicates⟩ (.symbol .doubleDot :: bracketed parts)
  | element {axis : Axis} {name : NameTest} {predicates : List Expr}
      {parts : List (List TokenKind)} :
      axis = .child ∨ axis = .descendantOrSelf → List.Forall₂ ReadOffPredicate predicates parts →
        ReadOffStep ⟨axis, .element name, predicates⟩ (name.kind :: bracketed parts)
  | attributeTest (name : NameTest) :
      ReadOffStep ⟨.child, .attribute name, []⟩ [.symbol .atSign, name.kind]

/-- The tokens are read off the predicate, its brackets left aside. -/
inductive ReadOffPredicate : Expr → List TokenKind → Prop where
  | whole {e : Expr} {ks : List TokenKind} : ReadOff e ks → ReadOffPredicate e ks
  | position (value : Float) :
      ReadOffPredicate (.binary (.compare .equal) (.call "position" []) (.number value))
        [.number value]

end

section

variable {e : Expr} {ks : List TokenKind}

theorem ReadOffPredicate.positional (h : ReadOff e ks) : ReadOffPredicate (positional e) ks := by
  cases e with
  | number value =>
    -- the number alone was written, the comparison is added to it
    cases h
    exact .position value
  | _ => exact .whole h

theorem ReadOff.of_path {p : Path Expr} (h : ReadOff (.path p) ks) : ReadOffPath p ks := by
  cases h with
  | path hpath => exact hpath

/-- A relative path of one attribute is written like that attribute. -/
theorem ReadOff.relative {steps : List (Step Expr)}
    (h : ReadOffSteps steps (.symbol .slash :: ks)) : ReadOff (pathExpr false steps) ks := by
  unfold pathExpr
  split
  · -- there is one step, and an attribute step has no predicates
    obtain _ | ⟨hstep, hlater⟩ := h
    cases hlater
    cases hstep
    exact .attributeTest _
  · exact .path (.relative h)

/-- Behind a double slash a step that is no name comes with the walk through the subtree. -/
theorem ReadOffSteps.descent {s : Step Expr} {later : List (Step Expr)} {ks' : List TokenKind}
    (separator : Separator) (hstep : ReadOffStep s ks) (htest : ∀ name, s.test ≠ .element name)
    (haxis : s.axis.separatorSymbol = .slash) (hlater : ReadOffSteps later ks') :
    ReadOffSteps (separator.descent ++ s :: later) (.symbol separator.symbol :: (ks ++ ks')) := by
  cases separator with
  | slash =>
    have hread := ReadOffSteps.step hstep hlater
    rwa [haxis] at hread
  | doubleSlash => exact .subtree htest hstep hlater

theorem intercalate_singleton_cons {α : Type} (separator : α) (first : List α)
    (rest : List (List α)) :
    [separator].intercalate (first :: rest) = first ++ rest.flatMap (separator :: ·) := by
  induction rest generalizing first with
  | nil => rw [List.intercalate_singleton, List.flatMap_nil, List.append_nil]
  | cons second rest ih =>
    rw [List.intercalate_cons_cons, ih, List.flatMap_cons, List.append_assoc]
    rfl

end

/-! ## Passed tokens -/

/-- The token shows in an expression: it is neither a parenthesis nor the end. -/
def TokenKind.isShown : TokenKind → Bool
  | .symbol .openParen => false
  | .symbol .closeParen => false
  | .stop => false
  | _ => true

/-- The kinds of the tokens that show in an expression. -/
def shown (tokens : List Token) : List TokenKind :=
  (tokens.map Token.kind).filter TokenKind.isShown

theorem shown_append (first second : List Token) :
    shown (first ++ second) = shown first ++ shown second := by
  rw [shown, List.map_append, List.filter_append]
  rfl

/-- From the one stream to the other some tokens are passed, of which these show. -/
def TokenStream.Passes (s : TokenStream) (ks : List TokenKind) (s' : TokenStream) : Prop :=
  ∃ passed, s.pending = passed ++ s'.pending ∧ shown passed = ks

namespace TokenStream.Passes

variable {s s₁ s₂ : TokenStream} {ks ks' : List TokenKind} {k : TokenKind}

theorem refl (s : TokenStream) : s.Passes [] s := ⟨[], rfl, rfl⟩

theorem trans (h : s.Passes ks s₁) (h' : s₁.Passes ks' s₂) : s.Passes (ks ++ ks') s₂ := by
  obtain ⟨passed, hpending, rfl⟩ := h
  obtain ⟨passed', hpending', rfl⟩ := h'
  refine ⟨passed ++ passed', ?_, shown_append _ _⟩
  rw [hpending, hpending', List.append_assoc]

/-- The next token is passed; at the end there is none, and the end does not show. -/
theorem advance (hk : s.peek.kind = k) : s.Passes ([k].filter TokenKind.isShown) s.advance := by
  subst hk
  rw [peek, TokenStream.advance]
  cases hpending : s.pending with
  | nil => exact ⟨[], hpending, rfl⟩
  | cons t rest => exact ⟨[t], hpending, rfl⟩

/-- Parentheses do not show. -/
theorem parenthesized (hopen : s.peek.kind = .symbol .openParen) (h : s.advance.Passes ks s₁)
    (hclose : s₁.peek.kind = .symbol .closeParen) : s.Passes ks s₁.advance := by
  have hbefore : s.Passes [] s.advance := advance hopen
  have hbehind : s₁.Passes [] s₁.advance := advance hclose
  have hall := (hbefore.trans h).trans hbehind
  rwa [List.nil_append, List.append_nil] at hall

theorem separator {separator : Separator} (hk : s.peek.kind = .symbol separator.symbol) :
    s.Passes [.symbol separator.symbol] s.advance := by
  cases separator with
  | slash => exact advance hk
  | doubleSlash => exact advance hk

theorem name {test : NameTest} (hk : s.peek.kind = test.kind) : s.Passes [test.kind] s.advance := by
  cases test with
  | wildcard => exact advance hk
  | name value => exact advance hk

theorem operator {op : BinaryOp} (hk : s.peek.kind = .symbol op.symbol) :
    s.Passes [.symbol op.symbol] s.advance := by
  have hshown : (TokenKind.symbol op.symbol).isShown = true := by
    cases op with
    | compare op => cases op <;> rfl
    | arithmetic op => cases op <;> rfl
    | _ => rfl
  have hpass := advance hk
  rwa [List.filter_singleton, hshown] at hpass

end TokenStream.Passes

/-- A step passes the tokens of its test. With predicates and later steps behind it, it is read as
what its separator and these tokens stand for. -/
theorem passes_of_stepStart {s s' : TokenStream} {separator : Separator}
    {before : List (Step Expr)} {axis : Axis} {test : NodeTest}
    (h : StepStart separator.axis s before axis test s') :
    ∃ head, s.Passes head s' ∧
      ∀ {predicates : List Expr} {parts : List (List TokenKind)} {later : List (Step Expr)}
        {ks : List TokenKind}, List.Forall₂ ReadOffPredicate (predicates.map positional) parts →
        (test.isAttribute = true → predicates = []) → ReadOffSteps later ks →
        ReadOffSteps (before ++ ⟨axis, test, predicates.map positional⟩ :: later)
          (.symbol separator.symbol :: (head ++ bracketed parts ++ ks)) := by
  cases h with
  | dot hk =>
    rw [splitAxis_axis]
    refine ⟨[.symbol .dot], .advance hk, ?_⟩
    intro predicates parts later ks hparts _ hlater
    exact .descent separator (.dot hparts) nofun rfl hlater
  | doubleDot hk =>
    rw [splitAxis_axis]
    refine ⟨[.symbol .doubleDot], .advance hk, ?_⟩
    intro predicates parts later ks hparts _ hlater
    exact .descent separator (.doubleDot hparts) nofun rfl hlater
  | @element test hk =>
    refine ⟨[test.kind], .name hk, ?_⟩
    intro predicates parts later ks hparts _ hlater
    -- the separator is written in the axis of the step itself
    cases separator with
    | slash => exact .step (.element (.inl rfl) hparts) hlater
    | doubleSlash => exact .step (.element (.inr rfl) hparts) hlater
  | @attributeTest test hk hname =>
    rw [splitAxis_axis]
    have hsign : s.Passes [.symbol .atSign] s.advance := .advance hk
    refine ⟨_, hsign.trans (.name hname), ?_⟩
    intro predicates parts later ks hparts hnone hlater
    -- no brackets are written behind an attribute
    obtain rfl := hnone rfl
    cases hparts
    exact .descent separator (.attributeTest test) nofun rfl hlater

/-! ## Reading off constituents -/

/-- The tokens are read off what a part of the grammar reads. Operators stand behind the operand on
their left, a call behind its name and steps behind their first separator. -/
def Constituent.IsReadOff (ks : List TokenKind) : Constituent → Prop
  | .union e => ReadOff e ks
  | .paths ps => ∃ parts, List.Forall₂ ReadOffPath ps parts ∧
      ks = parts.flatMap (.symbol .pipe :: ·)
  | .binary _ e => ReadOff e ks
  | .operators _ left e => ∀ ks₀, ReadOff left ks₀ → ReadOff e (ks₀ ++ ks)
  | .signed e => ReadOff e ks
  | .primary e => ReadOff e ks
  | .call _ args => ∃ parts, List.Forall₂ ReadOff args parts ∧
      ks = [.symbol .comma].intercalate parts
  | .arguments args => ∃ part parts, List.Forall₂ ReadOff args (part :: parts) ∧
      ks = [.symbol .comma].intercalate (part :: parts)
  | .path e => ReadOff e ks
  | .steps _ separator ss => ReadOffSteps ss (.symbol separator.symbol :: ks)
  | .predicates _ es => ∃ parts, List.Forall₂ ReadOffPredicate (es.map positional) parts ∧
      ks = bracketed parts

/-- Of the tokens that show, those are passed that are read off what is derived, and no others. -/
theorem Derives.passes {limit : Nat} {s s' : TokenStream} {c : Constituent}
    (h : Derives limit s c s') : ∃ ks, c.IsReadOff ks ∧ s.Passes ks s' := by
  induction h with
  | operand _ ih | unsigned _ ih | pathOperand _ ih => exact ih
  | union _ _ _ ih ihothers =>
    obtain ⟨ks, hfirst, hs₁⟩ := ih
    obtain ⟨_, ⟨parts, hothers, rfl⟩, hs₂⟩ := ihothers
    refine ⟨_, .union (.cons hfirst.of_path hothers), ?_⟩
    rw [intercalate_singleton_cons]
    exact hs₁.trans hs₂
  | noPath _ => exact ⟨[], ⟨[], .nil, rfl⟩, .refl _⟩
  | morePaths hpipe _ _ _ ih ihlater =>
    have hbar : TokenStream.Passes _ [.symbol .pipe] _ := .advance hpipe
    obtain ⟨ks, hpath, hs₁⟩ := ih
    obtain ⟨_, ⟨parts, hlater, rfl⟩, hs₂⟩ := ihlater
    refine ⟨_, ⟨ks :: parts, .cons hpath.of_path hlater, rfl⟩, ?_⟩
    rw [List.flatMap_cons]
    exact (hbar.trans hs₁).trans hs₂
  | binary _ _ _ ih ihoperators =>
    obtain ⟨ks, hleft, hs₁⟩ := ih
    obtain ⟨ks', he, hs₂⟩ := ihoperators
    -- entering and leaving an operand passes nothing
    exact ⟨ks ++ ks', he ks hleft, hs₁.trans hs₂⟩
  | noOperator _ => exact ⟨[], fun ks₀ hleft => (List.append_nil ks₀).symm ▸ hleft, .refl _⟩
  | @operator _ _ _ _ op _ _ _ hop _ _ ih ihlater =>
    have hsymbol : TokenStream.Passes _ [.symbol op.symbol] _ := .operator (kind_of_binaryOp? hop)
    obtain ⟨ks, hright, hs₁⟩ := ih
    obtain ⟨ks', he, hs₂⟩ := ihlater
    refine ⟨.symbol op.symbol :: ks ++ ks', fun ks₀ hleft => ?_, (hsymbol.trans hs₁).trans hs₂⟩
    -- what has been read so far is the left operand of the next operator
    rw [← List.append_assoc]
    exact he _ (.binary hleft hright)
  | not hsign _ ih =>
    have hpass : TokenStream.Passes _ [.symbol .not] _ := .advance hsign
    obtain ⟨ks, harg, hs₁⟩ := ih
    exact ⟨_, .not harg, hpass.trans hs₁⟩
  | negate hsign _ ih =>
    have hpass : TokenStream.Passes _ [.symbol .minus] _ := .advance hsign
    obtain ⟨ks, harg, hs₁⟩ := ih
    exact ⟨_, .negate harg, hpass.trans hs₁⟩
  | number hk => exact ⟨_, .number _, .advance hk⟩
  | string hk => exact ⟨_, .string _, .advance hk⟩
  | parenthesized hopen _ hclose ih =>
    obtain ⟨ks, he, hs₁⟩ := ih
    exact ⟨ks, he, .parenthesized hopen hs₁ hclose⟩
  | notCall hname _ ih =>
    have hsign : TokenStream.Passes _ [.symbol .not] _ := .advance hname
    obtain ⟨_, ⟨parts, hparts, rfl⟩, hs₁⟩ := ih
    obtain _ | ⟨harg, hnone⟩ := hparts
    cases hnone
    rw [List.intercalate_singleton] at hs₁
    exact ⟨_, .not harg, hsign.trans hs₁⟩
  | @namedCall _ _ name _ hname _ ih =>
    have hpass : TokenStream.Passes _ [.name name] _ := .advance hname
    obtain ⟨_, ⟨parts, hparts, rfl⟩, hs₁⟩ := ih
    exact ⟨_, .call hparts, hpass.trans hs₁⟩
  | emptyCall hopen hclose _ =>
    exact ⟨[], ⟨[], .nil, rfl⟩, .parenthesized hopen (.refl _) hclose⟩
  | call hopen _ hclose _ ih =>
    obtain ⟨_, ⟨part, parts, hparts, rfl⟩, hs₁⟩ := ih
    exact ⟨_, ⟨part :: parts, hparts, rfl⟩, .parenthesized hopen hs₁ hclose⟩
  | lastArgument _ ih =>
    obtain ⟨ks, harg, hs₁⟩ := ih
    exact ⟨ks, ⟨ks, [], .cons harg .nil, List.intercalate_singleton.symm⟩, hs₁⟩
  | moreArguments _ hcomma _ ih ihlater =>
    have hpass : TokenStream.Passes _ [.symbol .comma] _ := .advance hcomma
    obtain ⟨ks, harg, hs₁⟩ := ih
    obtain ⟨_, ⟨part, parts, hparts, rfl⟩, hs₂⟩ := ihlater
    refine ⟨_, ⟨ks, part :: parts, .cons harg hparts, rfl⟩, ?_⟩
    -- the further arguments are not none, so the comma stands between two
    rw [List.intercalate_cons_cons]
    exact (hs₁.trans hpass).trans hs₂
  | relative _ ih =>
    obtain ⟨ks, hsteps, hs₁⟩ := ih
    exact ⟨ks, .relative hsteps, hs₁⟩
  | absolute hk _ ih =>
    obtain ⟨ks, hsteps, hs₁⟩ := ih
    exact ⟨_, .path (.absolute hsteps), (TokenStream.Passes.separator hk).trans hs₁⟩
  | lastStep hstart hpredicates ih =>
    obtain ⟨head, hs₁, hread⟩ := passes_of_stepStart hstart
    obtain ⟨_, ⟨parts, hparts, rfl⟩, hs₂⟩ := ih
    refine ⟨_, hread hparts hpredicates.predicates_eq_nil .nil, ?_⟩
    rw [List.append_nil]
    exact hs₁.trans hs₂
  | step hstart _ hpredicates hnext _ ih ihlater =>
    obtain ⟨head, hs₁, hread⟩ := passes_of_stepStart hstart
    obtain ⟨_, ⟨parts, hparts, rfl⟩, hs₂⟩ := ih
    obtain ⟨ks, hlater, hs₃⟩ := ihlater
    have hpass := TokenStream.Passes.separator hnext
    refine ⟨_, ?_, (hs₁.trans hs₂).trans (hpass.trans hs₃)⟩
    rw [Constituent.IsReadOff, List.append_assoc]
    exact hread hparts hpredicates.predicates_eq_nil hlater
  | noPredicate => exact ⟨[], ⟨[], .nil, rfl⟩, .refl _⟩
  | morePredicates hopen _ _ hclose _ ih ihlater =>
    have hbefore : TokenStream.Passes _ [.symbol .openBracket] _ := .advance hopen
    have hbehind : TokenStream.Passes _ [.symbol .closeBracket] _ := .advance hclose
    obtain ⟨ks, he, hs₁⟩ := ih
    obtain ⟨_, ⟨parts, hparts, rfl⟩, hs₂⟩ := ihlater
    refine ⟨_, ⟨ks :: parts, .cons (.positional he) hparts, rfl⟩, ?_⟩
    have hall := ((hbefore.trans hs₁).trans hbehind).trans hs₂
    rwa [List.singleton_append, List.cons_append] at hall

/-! ## Whole expressions -/

/-- A stream keeps the tokens of its list that show, and no end if the list has none inside. -/
theorem TokenStream.pending_ofTokens {tokens : List Token}
    (hends : ∀ t ∈ tokens.dropLast, t.kind.isStop = false) :
    (∀ t ∈ (TokenStream.ofTokens tokens).pending, t.kind.isStop = false) ∧
      shown (TokenStream.ofTokens tokens).pending = shown tokens := by
  rw [TokenStream.ofTokens]
  split
  · next hnone =>
    rw [List.getLast?_eq_none_iff.1 hnone]
    exact ⟨List.forall_mem_nil _, rfl⟩
  · next last hlast =>
    have hlist : tokens.dropLast ++ [last] = tokens := List.dropLast_append_getLast? last hlast
    split
    · next hstop =>
      refine ⟨hends, ?_⟩
      rw [← hlist, shown_append, List.dropLast_concat]
      cases last with
      | mk kind offset =>
        cases kind with
        | stop => rw [show shown [⟨.stop, offset⟩] = [] from rfl, List.append_nil]
        | _ => cases hstop
    · next hstop =>
      refine ⟨?_, rfl⟩
      rw [← hlist]
      intro t ht
      rcases List.mem_append.1 ht with ht | ht
      · exact hends t ht
      · rw [List.mem_singleton.1 ht]
        exact Bool.eq_false_iff.2 hstop

/-- Of tokens with an end at most at their end, an expression is read from all that show, one after
another: nothing is lost, and nothing is added. -/
theorem readOff_of_ofTokens {limit : Nat} {tokens : List Token} {e : Expr}
    (hends : ∀ t ∈ tokens.dropLast, t.kind.isStop = false)
    (h : Expr.ofTokens limit tokens = .ok e) : ReadOff e (shown tokens) := by
  obtain ⟨rest, hderives, hstop⟩ := Derives.of_ofTokens h
  obtain ⟨_, he, passed, hpending, rfl⟩ := hderives.passes
  obtain ⟨hinside, hshown⟩ := TokenStream.pending_ofTokens hends
  -- the next token is the end, so none is left
  have hrest : rest.pending = [] := by
    cases hleft : rest.pending with
    | nil => rfl
    | cons t later =>
      rw [TokenStream.peek, hleft] at hstop
      have ht : t ∈ (TokenStream.ofTokens tokens).pending := by
        rw [hpending, hleft]
        exact List.mem_append_right _ List.mem_cons_self
      exact absurd hstop (Bool.eq_false_iff.1 (hinside t ht))
  rwa [← hshown, hpending, hrest, List.append_nil]

/-- The tokens of `not(b//.[2]) and -(@x)`: a walk through a subtree, a position and three pairs of
parentheses. -/
theorem readOff_positionBelow :
    let tokens : List Token := [⟨.symbol .not, 0⟩, ⟨.symbol .openParen, 3⟩, ⟨.name "b", 4⟩,
      ⟨.symbol .doubleSlash, 5⟩, ⟨.symbol .dot, 7⟩, ⟨.symbol .openBracket, 8⟩, ⟨.number 2, 9⟩,
      ⟨.symbol .closeBracket, 10⟩, ⟨.symbol .closeParen, 11⟩, ⟨.symbol .and, 13⟩,
      ⟨.symbol .minus, 17⟩, ⟨.symbol .openParen, 18⟩, ⟨.symbol .atSign, 19⟩, ⟨.name "x", 20⟩,
      ⟨.symbol .closeParen, 21⟩, ⟨.stop, 22⟩]
    let predicate : Expr := .binary (.compare .equal) (.call "position" []) (.number 2)
    let e : Expr := .binary .and
      (.not (.path ⟨false, [⟨.child, .element (.name "b"), []⟩, subtreeStep,
        ⟨.self, .any, [predicate]⟩]⟩))
      (.negate (.attribute (.name "x")))
    (∀ t ∈ tokens.dropLast, t.kind.isStop = false) ∧ Expr.ofTokens 4 tokens = .ok e ∧
      ReadOff e [.symbol .not, .name "b", .symbol .doubleSlash, .symbol .dot, .symbol .openBracket,
        .number 2, .symbol .closeBracket, .symbol .and, .symbol .minus, .symbol .atSign,
        .name "x"] := by
  intro tokens predicate e
  have hends : ∀ t ∈ tokens.dropLast, t.kind.isStop = false := by simp [tokens, TokenKind.isStop]
  have hparse : Expr.ofTokens 4 tokens = .ok e := rfl
  exact ⟨hends, hparse, readOff_of_ofTokens hends hparse⟩

end MarkupPath.Query
