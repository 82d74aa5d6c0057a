import MarkupPath.Proofs.Query.Derivation

/-!
# What the rules of the grammar keep

A property of all expressions that are read is one that every rule of the grammar keeps: `Keeps`
says that a property of expressions, with one of the steps of paths, holds of whatever a rule makes
of parts that have it, and `Keeps.ofTokens` concludes that it holds of every expression read from a
list of tokens.

The property may depend on the tokens: `Admits` follows which of them may stand where, and whether a
step is due there.
-/

set_option autoImplicit false

namespace MarkupPath.Query

/-! ## Admitted tokens -/

/-- The kinds are admitted one after another; `due` holds where a step is due in front of them. -/
def Admits (token : Bool → TokenKind → Prop) : Bool → List TokenKind → Prop
  | _, [] => True
  | due, k :: ks => token due k ∧ Admits token (Lexer.announcesStep k) ks

/-- The unread tokens are admitted. -/
def TokenStream.Admitted (s : TokenStream) (token : Bool → TokenKind → Prop) (due : Bool) : Prop :=
  Admits token due (s.pending.map Token.kind)

section

variable {token : Bool → TokenKind → Prop} {due : Bool}

/-- What stands first is admitted whatever stands behind it. -/
theorem Admits.of_append {ks ks' : List TokenKind} (h : Admits token due (ks ++ ks')) :
    Admits token due ks := by
  induction ks generalizing due with
  | nil => exact trivial
  | cons k ks ih => exact ⟨h.1, ih h.2⟩

namespace TokenStream.Admitted

variable {s : TokenStream} {k : TokenKind}

/-- The next token is admitted, if it is not the end. -/
theorem peek (h : s.Admitted token due) (hk : s.peek.kind = k) (hstop : k.isStop = false) :
    token due k := by
  subst hk
  rw [Admitted, pending_eq_cons hstop] at h
  exact h.1

/-- Behind the next token those are admitted that may stand behind it. -/
theorem advance (h : s.Admitted token due) (hk : s.peek.kind = k) :
    s.advance.Admitted token (Lexer.announcesStep k) := by
  subst hk
  unfold TokenStream.Admitted TokenStream.advance TokenStream.peek at *
  cases hs : s.pending with
  | nil => exact trivial
  | cons t ts =>
      rw [hs] at h
      exact h.2

end TokenStream.Admitted

/-- The stream of a list holds the tokens of the list and an end, and an end is admitted
anywhere. -/
theorem TokenStream.admitted_ofTokens {ts : List Token}
    (h : Admits token false (ts.map Token.kind)) :
    (TokenStream.ofTokens ts).Admitted token false := by
  unfold TokenStream.ofTokens
  split
  · exact trivial
  · split
    · -- the end is not kept among the unread tokens
      obtain ⟨rest, hrest⟩ := List.dropLast_prefix ts
      rw [← hrest, List.map_append] at h
      exact h.of_append
    · exact h

end

theorem announcesStep_separator (separator : Separator) :
    Lexer.announcesStep (.symbol separator.symbol) = true := by
  cases separator <;> rfl

theorem announcesStep_operator (op : BinaryOp) :
    Lexer.announcesStep (.symbol op.symbol) = false := by
  cases op with
  | compare op => cases op <;> rfl
  | arithmetic op => cases op <;> rfl
  | _ => rfl

theorem announcesStep_nameTest (test : NameTest) : Lexer.announcesStep test.kind = false := by
  cases test <;> rfl

/-! ## Properties that the rules keep -/

/-- How a step starts behind a separator: the steps before it, its axis and its test. -/
inductive StepHead (token : Bool → TokenKind → Prop) (due : Bool) (separator : Separator) :
    List (Step Expr) → Axis → NodeTest → Prop where
  | dot : StepHead token due separator separator.descent .self .any
  | doubleDot : StepHead token due separator separator.descent .parent .any
  | star : StepHead token due separator [] separator.axis (.element .wildcard)
  | name {name : String} (h : token due (.name name)) :
      StepHead token due separator [] separator.axis (.element (.name name))
  | anyAttribute : StepHead token due separator separator.descent .child (.attribute .wildcard)
  | namedAttribute {name : String} (h : token true (.name name)) :
      StepHead token due separator separator.descent .child (.attribute (.name name))

/-- What the rules make of expressions `e` with `P e` has the property again, and so do the steps
behind a separator with `S`; `due` holds where that separator is written. -/
structure Keeps (token : Bool → TokenKind → Prop) (P : Expr → Prop)
    (S : Bool → Separator → List (Step Expr) → Prop) : Prop where
  number {value : Float} (h : token false (.number value)) : P (.number value)
  string {value : String} (h : token false (.string value)) : P (.string value)
  not {e : Expr} (h : P e) : P (.not e)
  negate {e : Expr} (h : P e) : P (.negate e)
  binary {op : BinaryOp} {left right : Expr} (hleft : P left) (hright : P right) :
    P (.binary op left right)
  call {name : String} {args : List Expr} (hname : token false (.name name))
    (harity : arity? name = some args.length) (hargs : ∀ e ∈ args, P e) : P (.call name args)
  relative {steps : List (Step Expr)} (h : S false .slash steps) : P (pathExpr false steps)
  absolute {separator : Separator} {steps : List (Step Expr)} (h : S true separator steps) :
    P (pathExpr true steps)
  union {first second : Path Expr} {others : List (Path Expr)}
    (h : ∀ p ∈ first :: second :: others, P (.path p) ∧ p.endsInAttribute = false) :
    P (.union (first :: second :: others))
  lastStep {due : Bool} {separator : Separator} {before : List (Step Expr)} {axis : Axis}
    {test : NodeTest} {predicates : List Expr}
    (hhead : StepHead token due separator before axis test)
    (hattribute : test.isAttribute = true → predicates = []) (hpredicates : ∀ e ∈ predicates, P e) :
    S due separator (before ++ [⟨axis, test, predicates.map positional⟩])
  step {due : Bool} {separator next : Separator} {before later : List (Step Expr)} {axis : Axis}
    {test : NodeTest} {predicates : List Expr}
    (hhead : StepHead token due separator before axis test)
    (helement : test.isAttribute = false) (hpredicates : ∀ e ∈ predicates, P e)
    (hlater : S true next later) :
    S due separator (before ++ [⟨axis, test, predicates.map positional⟩] ++ later)

/-! ## The rules of the grammar -/

section

variable {token : Bool → TokenKind → Prop} {P : Expr → Prop}
  {S : Bool → Separator → List (Step Expr) → Prop} {limit : Nat} {s s' : TokenStream}

/-- A step starts as the grammar of steps says. -/
theorem stepHead_of_stepStart {due : Bool} {separator : Separator} {before : List (Step Expr)}
    {axis : Axis} {test : NodeTest} (hs : s.Admitted token due)
    (h : StepStart separator.axis s before axis test s') :
    StepHead token due separator before axis test ∧ s'.Admitted token false := by
  cases h with
  | dot hk =>
      rw [splitAxis_axis]
      exact ⟨.dot, hs.advance hk⟩
  | doubleDot hk =>
      rw [splitAxis_axis]
      exact ⟨.doubleDot, hs.advance hk⟩
  | @element test hk =>
      have hbehind := hs.advance hk
      rw [announcesStep_nameTest] at hbehind
      cases test with
      | wildcard => exact ⟨.star, hbehind⟩
      | name value => exact ⟨.name (hs.peek hk rfl), hbehind⟩
  | @attributeTest test hk hname =>
      rw [splitAxis_axis]
      -- behind the sign of an attribute a step is due
      have hinside : s.advance.Admitted token true := hs.advance hk
      have hbehind := hinside.advance hname
      rw [announcesStep_nameTest] at hbehind
      cases test with
      | wildcard => exact ⟨.anyAttribute, hbehind⟩
      | name value => exact ⟨.namedAttribute (hinside.peek hname rfl), hbehind⟩

/-- A step is due in front of the constituent. -/
def Constituent.due : Constituent → Bool
  | .steps written _ _ => written
  | _ => false

/-- The expressions that are read have the property, with the operand on their left if there is one,
and so do the steps. -/
def Constituent.Has (P : Expr → Prop) (S : Bool → Separator → List (Step Expr) → Prop) :
    Constituent → Prop
  | .union e => P e
  | .paths ps => ∀ p ∈ ps, P (.path p) ∧ p.endsInAttribute = false
  | .binary _ e => P e
  | .operators _ left e => P left → P e
  | .signed e => P e
  | .primary e => P e
  | .call name args => arity? name = some args.length ∧ ∀ e ∈ args, P e
  | .arguments args => ∀ e ∈ args, P e
  | .path e => P e
  | .steps written separator ss => S written separator ss
  | .predicates _ es => ∀ e ∈ es, P e

/-- What is derived from admitted tokens has every property that the rules keep, and leaves admitted
tokens where no step is due. -/
theorem Keeps.of_derives (hkeeps : Keeps token P S) {c : Constituent} (h : Derives limit s c s')
    (hs : s.Admitted token c.due) : c.Has P S ∧ s'.Admitted token false := by
  induction h with
  | operand _ ih | unsigned _ ih | pathOperand _ ih => exact ih hs
  | union hends _ _ ih ihothers =>
      obtain ⟨hfirst, hs₁⟩ := ih hs
      obtain ⟨hothers, hs₂⟩ := ihothers hs₁
      exact ⟨hkeeps.union (List.forall_mem_cons.2 ⟨⟨hfirst, hends⟩, hothers⟩), hs₂⟩
  | noPath _ => exact ⟨List.forall_mem_nil _, hs⟩
  | morePaths hpipe hends _ _ ih ihlater =>
      obtain ⟨hpath, hs₁⟩ := ih (hs.advance hpipe)
      obtain ⟨hlater, hs₂⟩ := ihlater hs₁
      exact ⟨List.forall_mem_cons.2 ⟨⟨hpath, hends⟩, hlater⟩, hs₂⟩
  | binary _ _ _ ih ihoperators =>
      obtain ⟨hleft, hs₁⟩ := ih hs
      obtain ⟨he, hs₂⟩ := ihoperators hs₁
      exact ⟨he hleft, hs₂⟩
  | noOperator _ => exact ⟨id, hs⟩
  | operator hop _ _ ih ihlater =>
      have hbehind := hs.advance (kind_of_binaryOp? hop)
      rw [announcesStep_operator] at hbehind
      obtain ⟨hright, hs₁⟩ := ih hbehind
      obtain ⟨he, hs₂⟩ := ihlater hs₁
      exact ⟨fun hleft => he (hkeeps.binary hleft hright), hs₂⟩
  | not hsign _ ih =>
      obtain ⟨harg, hs₁⟩ := ih (hs.advance hsign)
      exact ⟨hkeeps.not harg, hs₁⟩
  | negate hsign _ ih =>
      obtain ⟨harg, hs₁⟩ := ih (hs.advance hsign)
      exact ⟨hkeeps.negate harg, hs₁⟩
  | number hk => exact ⟨hkeeps.number (hs.peek hk rfl), hs.advance hk⟩
  | string hk => exact ⟨hkeeps.string (hs.peek hk rfl), hs.advance hk⟩
  | parenthesized hopen _ hclose ih =>
      obtain ⟨he, hs₁⟩ := ih (hs.advance hopen)
      exact ⟨he, hs₁.advance hclose⟩
  | notCall hname _ ih =>
      obtain ⟨⟨-, harg⟩, hs₁⟩ := ih (hs.advance hname)
      exact ⟨hkeeps.not (harg _ (List.mem_singleton_self _)), hs₁⟩
  | namedCall hname _ ih =>
      obtain ⟨⟨harity, hargs⟩, hs₁⟩ := ih (hs.advance hname)
      exact ⟨hkeeps.call (hs.peek hname rfl) harity hargs, hs₁⟩
  | emptyCall hopen hclose harity =>
      have hinside : TokenStream.Admitted _ token false := hs.advance hopen
      exact ⟨⟨harity, List.forall_mem_nil _⟩, hinside.advance hclose⟩
  | call hopen _ hclose harity ih =>
      obtain ⟨hargs, hs₁⟩ := ih (hs.advance hopen)
      exact ⟨⟨harity, hargs⟩, hs₁.advance hclose⟩
  | lastArgument _ ih =>
      obtain ⟨harg, hs₁⟩ := ih hs
      exact ⟨List.forall_mem_singleton.2 harg, hs₁⟩
  | moreArguments _ hcomma _ ih ihlater =>
      obtain ⟨harg, hs₁⟩ := ih hs
      obtain ⟨hargs, hs₂⟩ := ihlater (hs₁.advance hcomma)
      exact ⟨List.forall_mem_cons.2 ⟨harg, hargs⟩, hs₂⟩
  | relative _ ih =>
      obtain ⟨hsteps, hs₁⟩ := ih hs
      exact ⟨hkeeps.relative hsteps, hs₁⟩
  | @absolute _ _ separator _ hk _ ih =>
      have hbehind := hs.advance hk
      rw [announcesStep_separator] at hbehind
      obtain ⟨hsteps, hs₁⟩ := ih hbehind
      exact ⟨hkeeps.absolute hsteps, hs₁⟩
  | lastStep hstart hpredicates ih =>
      obtain ⟨hhead, hs₁⟩ := stepHead_of_stepStart hs hstart
      obtain ⟨hes, hs₂⟩ := ih hs₁
      exact ⟨hkeeps.lastStep hhead hpredicates.predicates_eq_nil hes, hs₂⟩
  | step hstart helement _ hnext _ ih ihlater =>
      obtain ⟨hhead, hs₁⟩ := stepHead_of_stepStart hs hstart
      obtain ⟨hes, hs₂⟩ := ih hs₁
      have hbehind := hs₂.advance hnext
      rw [announcesStep_separator] at hbehind
      obtain ⟨hlater, hs₃⟩ := ihlater hbehind
      exact ⟨hkeeps.step hhead helement hes hlater, hs₃⟩
  | noPredicate => exact ⟨List.forall_mem_nil _, hs⟩
  | morePredicates hopen _ _ hclose _ ih ihlater =>
      obtain ⟨he, hs₁⟩ := ih (hs.advance hopen)
      obtain ⟨hes, hs₂⟩ := ihlater (hs₁.advance hclose)
      exact ⟨List.forall_mem_cons.2 ⟨he, hes⟩, hs₂⟩

/-- A property that the rules of the grammar keep holds of every expression that is read from
admitted tokens. -/
theorem Keeps.ofTokens (hkeeps : Keeps token P S) {ts : List Token} {e : Expr}
    (hts : Admits token false (ts.map Token.kind)) (h : Expr.ofTokens limit ts = .ok e) : P e := by
  obtain ⟨rest, hderives, -⟩ := Derives.of_ofTokens h
  exact (hkeeps.of_derives hderives (TokenStream.admitted_ofTokens hts)).1

end

end MarkupPath.Query
