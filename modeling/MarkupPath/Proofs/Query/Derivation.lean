import MarkupPath.Proofs.Query.Stream

/-!
# Derivations

What the grammar reads where it succeeds, stated once. A `Constituent` is what one part of the
grammar reads, and `Derives limit s c s'` says that it stands between two places of a stream; there
is one rule for each way in which the grammar makes a constituent out of others. Whatever a part of
the grammar returns is derived (`Derives.At.of_fuel`), so what holds of everything that is read is
shown by induction on derivations, where neither fuel nor faults occur.
-/

set_option autoImplicit false

namespace MarkupPath.Query

/-! ## Checks that succeed -/

/-- Only a path that does not end in an attribute is taken as an operand of a union. -/
theorem path_of_unionOperand {e : Expr} {offset : Nat} {p : Path Expr}
    (h : unionOperand e offset = .ok p) : e = .path p ∧ p.endsInAttribute = false := by
  unfold unionOperand at h
  split at h
  · split at h
    · cases h
    · next hends =>
        cases h
        exact ⟨rfl, Bool.eq_false_iff.2 hends⟩
  · cases h

/-- A call that passes the check has as many arguments as the function takes, unchanged. -/
theorem arity_of_checkCall {name : String} {args args' : List Expr} {offset : Nat}
    (h : checkCall name args offset = .ok args') :
    args' = args ∧ arity? name = some args.length := by
  rw [checkCall] at h
  split at h
  · cases h
  · next arity harity =>
      split at h
      · next hlength =>
          cases h
          exact ⟨rfl, hlength ▸ harity⟩
      · cases h

/-- The operators that may stand next in the stream bind less tightly. -/
def TokenStream.Looser (s : TokenStream) (power : Nat) : Prop :=
  ∀ op, binaryOp? s.peek.kind = some op → op.power < power

/-! ## Constituents -/

/-- What a part of the grammar reads, with what it is told: the power that operators have to bind
with, the operand on their left, the name of a call, the test of a step. The first separator of a
relative path is a slash that is not written; predicates are given as they are written. -/
inductive Constituent where
  | union (e : Expr)
  | paths (paths : List (Path Expr))
  | binary (power : Nat) (e : Expr)
  | operators (power : Nat) (left e : Expr)
  | signed (e : Expr)
  | primary (e : Expr)
  | call (name : String) (args : List Expr)
  | arguments (args : List Expr)
  | path (e : Expr)
  | steps (written : Bool) (separator : Separator) (steps : List (Step Expr))
  | predicates (test : NodeTest) (predicates : List Expr)

/-- The constituent stands between the two places of a stream, with operands nested at most `limit`
deep. A call stands behind its name, and steps stand behind their first separator. -/
inductive Derives (limit : Nat) : TokenStream → Constituent → TokenStream → Prop where
  -- operands with bars between them
  | operand {s s₁ : TokenStream} {e : Expr} (h : Derives limit s (.binary loosestPower e) s₁) :
      Derives limit s (.union e) s₁
  | union {s s₁ s₂ : TokenStream} {first second : Path Expr} {others : List (Path Expr)}
      (hends : first.endsInAttribute = false)
      (hfirst : Derives limit s (.binary loosestPower (.path first)) s₁)
      (hothers : Derives limit s₁ (.paths (second :: others)) s₂) :
      Derives limit s (.union (.union (first :: second :: others))) s₂
  | noPath {s : TokenStream} (hpipe : s.sees .pipe = false) : Derives limit s (.paths []) s
  | morePaths {s s₁ s₂ : TokenStream} {p : Path Expr} {paths : List (Path Expr)}
      (hpipe : s.peek.kind = .symbol .pipe) (hends : p.endsInAttribute = false)
      (hpath : Derives limit s.advance (.binary loosestPower (.path p)) s₁)
      (hlater : Derives limit s₁ (.paths paths) s₂) : Derives limit s (.paths (p :: paths)) s₂
  -- operators and signs
  | binary {s s₁ s₂ : TokenStream} {power : Nat} {left e : Expr} (hlimit : s.depth < limit)
      (hleft : Derives limit { s with depth := s.depth + 1 } (.signed left) s₁)
      (hoperators : Derives limit s₁ (.operators power left e) s₂) :
      Derives limit s (.binary power e) s₂.leave
  | noOperator {s : TokenStream} {power : Nat} {left : Expr} (hnext : s.Looser power) :
      Derives limit s (.operators power left left) s
  | operator {s s₁ s₂ : TokenStream} {power : Nat} {op : BinaryOp} {left right e : Expr}
      (hop : binaryOp? s.peek.kind = some op)
      (hright : Derives limit s.advance (.binary (op.power + 1) right) s₁)
      (hlater : Derives limit s₁ (.operators power (.binary op left right) e) s₂) :
      Derives limit s (.operators power left e) s₂
  | not {s s₁ : TokenStream} {arg : Expr} (hsign : s.peek.kind = .symbol .not)
      (harg : Derives limit s.advance (.binary notOperandPower arg) s₁) :
      Derives limit s (.signed (.not arg)) s₁
  | negate {s s₁ : TokenStream} {arg : Expr} (hsign : s.peek.kind = .symbol .minus)
      (harg : Derives limit s.advance (.binary negationPower arg) s₁) :
      Derives limit s (.signed (.negate arg)) s₁
  | unsigned {s s₁ : TokenStream} {e : Expr} (h : Derives limit s (.primary e) s₁) :
      Derives limit s (.signed e) s₁
  -- operands without operators
  | number {s : TokenStream} {value : Float} (hk : s.peek.kind = .number value) :
      Derives limit s (.primary (.number value)) s.advance
  | string {s : TokenStream} {value : String} (hk : s.peek.kind = .string value) :
      Derives limit s (.primary (.string value)) s.advance
  | parenthesized {s s₁ : TokenStream} {e : Expr} (hopen : s.peek.kind = .symbol .openParen)
      (h : Derives limit s.advance (.union e) s₁) (hclose : s₁.peek.kind = .symbol .closeParen) :
      Derives limit s (.primary e) s₁.advance
  | notCall {s s₁ : TokenStream} {arg : Expr} (hname : s.peek.kind = .symbol .not)
      (h : Derives limit s.advance (.call "not" [arg]) s₁) :
      Derives limit s (.primary (.not arg)) s₁
  | namedCall {s s₁ : TokenStream} {name : String} {args : List Expr}
      (hname : s.peek.kind = .name name) (h : Derives limit s.advance (.call name args) s₁) :
      Derives limit s (.primary (.call name args)) s₁
  | pathOperand {s s₁ : TokenStream} {e : Expr} (h : Derives limit s (.path e) s₁) :
      Derives limit s (.primary e) s₁
  -- calls and their arguments
  | emptyCall {s : TokenStream} {name : String} (hopen : s.peek.kind = .symbol .openParen)
      (hclose : s.advance.peek.kind = .symbol .closeParen) (harity : arity? name = some 0) :
      Derives limit s (.call name []) s.advance.advance
  | call {s s₁ : TokenStream} {name : String} {args : List Expr}
      (hopen : s.peek.kind = .symbol .openParen)
      (hargs : Derives limit s.advance (.arguments args) s₁)
      (hclose : s₁.peek.kind = .symbol .closeParen) (harity : arity? name = some args.length) :
      Derives limit s (.call name args) s₁.advance
  | lastArgument {s s₁ : TokenStream} {arg : Expr} (h : Derives limit s (.union arg) s₁) :
      Derives limit s (.arguments [arg]) s₁
  | moreArguments {s s₁ s₂ : TokenStream} {arg : Expr} {args : List Expr}
      (hfirst : Derives limit s (.union arg) s₁) (hcomma : s₁.peek.kind = .symbol .comma)
      (hlater : Derives limit s₁.advance (.arguments args) s₂) :
      Derives limit s (.arguments (arg :: args)) s₂
  -- paths, their steps and predicates
  | relative {s s₁ : TokenStream} {steps : List (Step Expr)}
      (h : Derives limit s (.steps false .slash steps) s₁) :
      Derives limit s (.path (pathExpr false steps)) s₁
  | absolute {s s₁ : TokenStream} {separator : Separator} {steps : List (Step Expr)}
      (hk : s.peek.kind = .symbol separator.symbol)
      (h : Derives limit s.advance (.steps true separator steps) s₁) :
      Derives limit s (.path (pathExpr true steps)) s₁
  | lastStep {s s₁ s₂ : TokenStream} {written : Bool} {separator : Separator}
      {before : List (Step Expr)} {axis : Axis} {test : NodeTest} {predicates : List Expr}
      (hstart : StepStart separator.axis s before axis test s₁)
      (hpredicates : Derives limit s₁ (.predicates test predicates) s₂) :
      Derives limit s
        (.steps written separator (before ++ [⟨axis, test, predicates.map positional⟩])) s₂
  | step {s s₁ s₂ s₃ : TokenStream} {written : Bool} {separator next : Separator}
      {before later : List (Step Expr)} {axis : Axis} {test : NodeTest} {predicates : List Expr}
      (hstart : StepStart separator.axis s before axis test s₁)
      (helement : test.isAttribute = false)
      (hpredicates : Derives limit s₁ (.predicates test predicates) s₂)
      (hnext : s₂.peek.kind = .symbol next.symbol)
      (hlater : Derives limit s₂.advance (.steps true next later) s₃) :
      Derives limit s
        (.steps written separator (before ++ [⟨axis, test, predicates.map positional⟩] ++ later)) s₃
  | noPredicate {s : TokenStream} {test : NodeTest} : Derives limit s (.predicates test []) s
  | morePredicates {s s₁ s₂ : TokenStream} {test : NodeTest} {e : Expr} {predicates : List Expr}
      (hopen : s.peek.kind = .symbol .openBracket) (helement : test.isAttribute = false)
      (h : Derives limit s.advance (.union e) s₁) (hclose : s₁.peek.kind = .symbol .closeBracket)
      (hlater : Derives limit s₁.advance (.predicates test predicates) s₂) :
      Derives limit s (.predicates test (e :: predicates)) s₂

namespace Derives

variable {limit : Nat} {s s' : TokenStream}

/-- The nesting is left as it is found. -/
theorem depth_eq {c : Constituent} (h : Derives limit s c s') : s'.depth = s.depth := by
  induction h with
  | binary _ _ _ ihleft ihoperators =>
      rw [TokenStream.leave]
      dsimp only at ihleft ⊢
      rw [ihoperators, ihleft, Nat.add_sub_cancel]
  | lastStep hstart _ ih => exact ih.trans hstart.depth_eq
  | step hstart _ _ _ _ ih ihlater => exact ihlater.trans (ih.trans hstart.depth_eq)
  | noPath | noOperator | number | string | emptyCall | noPredicate => rfl
  | operand _ ih | not _ _ ih | negate _ _ ih | unsigned _ ih | parenthesized _ _ _ ih
  | notCall _ _ ih | namedCall _ _ ih | pathOperand _ ih | call _ _ _ _ ih | lastArgument _ ih
  | relative _ ih | absolute _ _ ih => exact ih
  | union _ _ _ ih ihlater | morePaths _ _ _ _ ih ihlater | operator _ _ _ ih ihlater
  | moreArguments _ _ _ ih ihlater | morePredicates _ _ _ _ _ ih ihlater =>
      exact ihlater.trans ih

/-- An attribute step has no predicates. -/
theorem predicates_eq_nil {test : NodeTest} {predicates : List Expr}
    (h : Derives limit s (.predicates test predicates) s') (htest : test.isAttribute = true) :
    predicates = [] := by
  cases h with
  | noPredicate => rfl
  | morePredicates _ helement => exact absurd htest (Bool.eq_false_iff.1 helement)

/-- Behind a bar there is a path. -/
theorem paths_eq_cons {paths : List (Path Expr)} (h : Derives limit s (.paths paths) s')
    (hpipe : s.sees .pipe = true) : ∃ second others, paths = second :: others := by
  cases h with
  | noPath hnone => exact absurd hpipe (Bool.eq_false_iff.1 hnone)
  | morePaths => exact ⟨_, _, rfl⟩

/-- A call of `not` has one argument. -/
theorem not_eq_singleton {args : List Expr} (h : Derives limit s (.call "not" args) s') :
    ∃ arg, args = [arg] := by
  have harity : arity? "not" = some args.length := by
    cases h with
    | emptyCall _ _ harity => exact harity
    | call _ _ _ harity => exact harity
  have hlength : args.length = 1 := (Option.some.inj harity).symm
  exact List.length_eq_one_iff.1 hlength

/-! ## What the grammar returns -/

/-- With so much fuel, what each part of the grammar returns is derived. -/
structure At (limit fuel : Nat) : Prop where
  union (s : TokenStream) :
    Ensures (parseUnion limit fuel s) fun e s' => Derives limit s (.union e) s'
  paths (s : TokenStream) :
    Ensures (parsePaths limit fuel s) fun paths s' => Derives limit s (.paths paths) s'
  binary (power : Nat) (s : TokenStream) :
    Ensures (parseBinary limit fuel power s) fun e s' => Derives limit s (.binary power e) s'
  operators (power : Nat) (left : Expr) (s : TokenStream) :
    Ensures (parseOperators limit fuel power left s) fun e s' =>
      Derives limit s (.operators power left e) s'
  signed (s : TokenStream) :
    Ensures (parsePrefix limit fuel s) fun e s' => Derives limit s (.signed e) s'
  primary (s : TokenStream) :
    Ensures (parsePrimary limit fuel s) fun e s' => Derives limit s (.primary e) s'
  call (name : String) (s : TokenStream) :
    Ensures (parseCall limit fuel name s) fun args s' =>
      Derives limit s.advance (.call name args) s'
  arguments (s : TokenStream) :
    Ensures (parseArguments limit fuel s) fun args s' => Derives limit s (.arguments args) s'
  path (s : TokenStream) :
    Ensures (parsePath limit fuel s) fun e s' => Derives limit s (.path e) s'
  steps (written : Bool) (separator : Separator) (s : TokenStream) :
    Ensures (parseSteps limit fuel separator.axis s) fun steps s' =>
      Derives limit s (.steps written separator steps) s'
  predicates (test : NodeTest) (s : TokenStream) :
    Ensures (parsePredicates limit fuel test s) fun predicates s' =>
      ∃ es, predicates = es.map positional ∧ Derives limit s (.predicates test es) s'

namespace At

/-- Without fuel every part fails, and there is nothing to derive. -/
theorem zero : At limit 0 where
  union _ := by rw [parseUnion]; exact .fault
  paths _ := by rw [parsePaths]; exact .fault
  binary _ _ := by rw [parseBinary]; exact .fault
  operators _ _ _ := by rw [parseOperators]; exact .fault
  signed _ := by rw [parsePrefix]; exact .fault
  primary _ := by rw [parsePrimary]; exact .fault
  call _ _ := by rw [parseCall]; exact .fault
  arguments _ := by rw [parseArguments]; exact .fault
  path _ := by rw [parsePath]; exact .fault
  steps _ _ _ := by rw [parseSteps]; exact .fault
  predicates _ _ := by rw [parsePredicates]; exact .fault

variable {fuel : Nat} (h : At limit fuel) (s : TokenStream)
include h

/-- A union has two paths at least: the first bar is the one that makes it a union, so `parsePaths`
is called where there is a path. -/
theorem union_succ : Ensures (parseUnion limit (fuel + 1) s) fun e s' =>
    Derives limit s (.union e) s' := by
  rw [parseUnion]
  refine (h.binary loosestPower s).bind ?_
  intro first s₁ hfirst
  dsimp only
  split
  · next hpipe =>
      refine .bind_ok ?_
      intro path hpath
      obtain ⟨rfl, hends⟩ := path_of_unionOperand hpath
      refine (h.paths s₁).bind ?_
      intro paths s₂ hpaths
      obtain ⟨second, others, rfl⟩ := hpaths.paths_eq_cons hpipe
      exact .pure (.union hends hfirst hpaths)
  · exact .pure (.operand hfirst)

/-- The loop over the further paths: a turn behind a bar, and none where there is no bar. -/
theorem paths_succ : Ensures (parsePaths limit (fuel + 1) s) fun paths s' =>
    Derives limit s (.paths paths) s' := by
  rw [parsePaths]
  split
  · next hpipe =>
      refine (h.binary loosestPower s.advance).bind ?_
      intro operand s₁ hoperand
      refine .bind_ok ?_
      intro path hpath
      obtain ⟨rfl, hends⟩ := path_of_unionOperand hpath
      refine (h.paths s₁).bind ?_
      intro paths s₂ hpaths
      exact .pure (.morePaths (TokenStream.kind_of_sees hpipe) hends hoperand hpaths)
  · next hpipe => exact .pure (.noPath (Bool.eq_false_iff.2 hpipe))

/-- The one place where the nesting is entered and left, and so the only rule with a limit. -/
theorem binary_succ (power : Nat) : Ensures (parseBinary limit (fuel + 1) power s) fun e s' =>
    Derives limit s (.binary power e) s' := by
  rw [parseBinary]
  refine .bind_ok ?_
  intro inside hinside
  obtain ⟨hlimit, rfl⟩ := TokenStream.enter_eq_ok hinside
  refine (h.signed _).bind ?_
  intro left s₁ hleft
  refine (h.operators power left s₁).bind ?_
  intro e s₂ he
  exact .pure (.binary hlimit hleft he)

/-- The loop ends at a token that is no operator and at an operator that binds too loosely; the two
are one rule. -/
theorem operators_succ (power : Nat) (left : Expr) :
    Ensures (parseOperators limit (fuel + 1) power left s) fun e s' =>
      Derives limit s (.operators power left e) s' := by
  rw [parseOperators]
  split
  · next hnone =>
      refine .pure (.noOperator fun op hop => ?_)
      rw [hnone] at hop
      cases hop
  · next op hop =>
      split
      · next hpower =>
          refine .pure (.noOperator fun op' hop' => ?_)
          rw [hop] at hop'
          cases hop'
          exact hpower
      · refine (h.binary (op.power + 1) s.advance).bind ?_
        intro right s₁ hright e s₂ hok
        exact .operator hop hright (h.operators power _ s₁ e s₂ hok)

/-- A sign takes its operand at a power of its own. -/
theorem signed_succ : Ensures (parsePrefix limit (fuel + 1) s) fun e s' =>
    Derives limit s (.signed e) s' := by
  rw [parsePrefix]
  split
  · next hnot =>
      have hsign := TokenStream.kind_of_sees (Bool.and_eq_true_iff.1 hnot).1
      refine (h.binary notOperandPower s.advance).bind ?_
      intro arg s₁ harg
      exact .pure (.not hsign harg)
  · split
    · next hminus =>
        refine (h.binary negationPower s.advance).bind ?_
        intro arg s₁ harg
        exact .pure (.negate (TokenStream.kind_of_sees hminus) harg)
    · intro e s₁ hok
      exact .unsigned (h.primary s e s₁ hok)

/-- `not` is read here as a call only if it was not a sign, and a name as a call only if a
parenthesis follows it. -/
theorem primary_succ : Ensures (parsePrimary limit (fuel + 1) s) fun e s' =>
    Derives limit s (.primary e) s' := by
  have hpath : Ensures (parsePath limit fuel s) fun e s' => Derives limit s (.primary e) s' :=
    fun e s₁ hok => .pathOperand (h.path s e s₁ hok)
  rw [parsePrimary]
  split
  · next value hk => exact .pure (.number hk)
  · next value hk => exact .pure (.string hk)
  · next hopen =>
      refine (h.union s.advance).bind ?_
      intro e s₁ he
      refine .bind_ok ?_
      intro s₂ hs₂
      obtain ⟨hclose, rfl⟩ := TokenStream.expect_eq_ok hs₂
      exact .pure (.parenthesized hopen he hclose)
  · next hname =>
      refine (h.call "not" s).bind ?_
      intro args s₁ hargs
      obtain ⟨arg, rfl⟩ := hargs.not_eq_singleton
      exact .pure (.notCall hname hargs)
  · next name hname =>
      split
      · refine (h.call name s).bind ?_
        intro args s₁ hargs
        exact .pure (.namedCall hname hargs)
      · exact hpath
  · split
    · exact hpath
    · exact .fault

/-- The parenthesis, the arguments, the other parenthesis, and only then the number of the
arguments. -/
theorem call_succ (name : String) : Ensures (parseCall limit (fuel + 1) name s) fun args s' =>
    Derives limit s.advance (.call name args) s' := by
  rw [parseCall]
  refine .bind_ok ?_
  intro inside hinside
  obtain ⟨hopen, rfl⟩ := TokenStream.expect_eq_ok hinside
  -- with the arguments read, the call is closed and checked
  have hclose : ∀ (args : List Expr) (s₁ : TokenStream),
      (s₁.peek.kind = .symbol .closeParen → arity? name = some args.length →
        Derives limit s.advance (.call name args) s₁.advance) →
      Ensures (s₁.expect .closeParen >>= fun s₂ =>
        checkCall name args s.peek.offset >>= fun args => pure (args, s₂)) fun args s' =>
          Derives limit s.advance (.call name args) s' := by
    intro args s₁ hcall
    refine .bind_ok ?_
    intro s₂ hs₂
    obtain ⟨hkind, rfl⟩ := TokenStream.expect_eq_ok hs₂
    refine .bind_ok ?_
    intro args' hcheck
    obtain ⟨rfl, harity⟩ := arity_of_checkCall hcheck
    exact .pure (hcall hkind harity)
  split
  · exact hclose [] _ (.emptyCall hopen)
  · refine (h.arguments _).bind ?_
    intro args s₁ hargs
    exact hclose args s₁ (.call hopen hargs)

/-- A comma asks for a further argument, so the list is never empty. -/
theorem arguments_succ : Ensures (parseArguments limit (fuel + 1) s) fun args s' =>
    Derives limit s (.arguments args) s' := by
  rw [parseArguments]
  refine (h.union s).bind ?_
  intro arg s₁ harg
  dsimp only
  split
  · next hcomma =>
      refine (h.arguments s₁.advance).bind ?_
      intro args s₂ hargs
      exact .pure (.moreArguments harg (TokenStream.kind_of_sees hcomma) hargs)
  · exact .pure (.lastArgument harg)

/-- The mark that an absolute path starts with is the separator in front of its first step. -/
theorem path_succ : Ensures (parsePath limit (fuel + 1) s) fun e s' =>
    Derives limit s (.path e) s' := by
  rw [parsePath]
  refine .bind_ok ?_
  rintro ⟨absolute, axis, s₁⟩ hstart
  obtain ⟨rfl, rfl, rfl⟩ | ⟨rfl, rfl, separator, rfl, hk⟩ := pathStart_eq_ok hstart
  · refine (h.steps false .slash s₁).bind ?_
    intro steps s₂ hsteps
    exact .pure (.relative hsteps)
  · refine (h.steps true separator s.advance).bind ?_
    intro steps s₂ hsteps
    exact .pure (.absolute hk hsteps)

/-- A path ends behind a step where there is no separator. Behind an attribute step a separator is a
fault, so the rule for a further step is for elements alone. -/
theorem steps_succ (written : Bool) (separator : Separator) :
    Ensures (parseSteps limit (fuel + 1) separator.axis s) fun steps s' =>
      Derives limit s (.steps written separator steps) s' := by
  rw [parseSteps]
  refine .bind_ok ?_
  rintro ⟨before, axis, test, s₁⟩ hstart
  refine (h.predicates test s₁).bind ?_
  rintro _ s₂ ⟨predicates, rfl, hpredicates⟩
  dsimp only
  split
  · exact .pure (.lastStep (stepStart_eq_ok hstart) hpredicates)
  · next next hnext =>
      split
      · exact .fault
      · next helement =>
          obtain ⟨separator', rfl, hk⟩ := kind_of_separatorAxis? hnext
          refine (h.steps true separator' s₂.advance).bind ?_
          intro later s₃ hlater
          exact .pure (.step (stepStart_eq_ok hstart) (Bool.eq_false_iff.2 helement) hpredicates hk
            hlater)

/-- Predicates are derived as they are written; the grammar replaces each number by a comparison
with the position. -/
theorem predicates_succ (test : NodeTest) :
    Ensures (parsePredicates limit (fuel + 1) test s) fun predicates s' =>
      ∃ es, predicates = es.map positional ∧ Derives limit s (.predicates test es) s' := by
  rw [parsePredicates]
  split
  · next hopen =>
      split
      · exact .fault
      · next helement =>
          refine (h.union s.advance).bind ?_
          intro predicate s₁ hpredicate
          refine .bind_ok ?_
          intro s₂ hs₂
          obtain ⟨hclose, rfl⟩ := TokenStream.expect_eq_ok hs₂
          refine (h.predicates test s₁.advance).bind ?_
          rintro _ s₃ ⟨es, rfl, hlater⟩
          exact .pure ⟨predicate :: es, rfl, .morePredicates (TokenStream.kind_of_sees hopen)
            (Bool.eq_false_iff.2 helement) hpredicate hclose hlater⟩
  · exact .pure ⟨[], rfl, .noPredicate⟩

omit h in
/-- Every result of every part of the grammar is derived, whatever fuel there was: the induction is
on the fuel, and the rule for each result is found by the case of the part that returned it. -/
theorem of_fuel (limit fuel : Nat) : At limit fuel := by
  induction fuel with
  | zero => exact zero
  | succ fuel ih =>
      exact {
        union := ih.union_succ
        paths := ih.paths_succ
        binary := fun power s => ih.binary_succ s power
        operators := fun power left s => ih.operators_succ s power left
        signed := ih.signed_succ
        primary := ih.primary_succ
        call := fun name s => ih.call_succ s name
        arguments := ih.arguments_succ
        path := ih.path_succ
        steps := fun written separator s => ih.steps_succ s written separator
        predicates := fun test s => ih.predicates_succ s test }

end At

/-- An expression that is read from a list of tokens stands between their start and their end. -/
theorem of_ofTokens {tokens : List Token} {e : Expr} (h : Expr.ofTokens limit tokens = .ok e) :
    ∃ rest, Derives limit (TokenStream.ofTokens tokens) (.union e) rest ∧
      rest.peek.kind.isStop = true := by
  obtain ⟨rest, hparse, hstop⟩ := parseUnion_of_ofTokens h
  exact ⟨rest, (At.of_fuel limit _).union _ e rest hparse, hstop⟩

end Derives

end MarkupPath.Query
