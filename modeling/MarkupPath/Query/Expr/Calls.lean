import MarkupPath.Query.Expr.Parse

/-!
# The calls of the grammar

The grammar once more, with a record of its calls: which part of it is called, where the stream
stands then, and where it stands behind a call that succeeds. The record also holds the calls of
parts that fail. Here running out of `fuel` is told apart from a fault: such a run has no outcome.
-/

set_option autoImplicit false

namespace MarkupPath.Query

/-- The parts of the grammar. The four loops over bars, operators, commas and predicates are called
once for each turn; a step is called in each turn of the loop over the separators of a path. -/
inductive GrammarPart where
  | union
  | paths
  | binary
  | operators
  | signed
  | primary
  | call
  | arguments
  | path
  | step
  | predicates
  deriving DecidableEq, Repr

/-- A call of a part of the grammar: where the stream stands, and where it stands behind the part
if that succeeds. -/
structure Call where
  part : GrammarPart
  before : TokenStream
  after : Option TokenStream
  deriving Repr

/-- What is read, with the calls that were made for it, and without an outcome if fuel ran out. -/
structure Recorded (α : Type) where
  calls : List Call
  outcome : Option (Except SyntaxError α)

namespace Recorded

variable {α β : Type}

/-- The second part is read behind the first, if that succeeds. -/
def bind (m : Recorded α) (f : α → Recorded β) : Recorded β :=
  match m.outcome with
  | some (.ok a) => ⟨m.calls ++ (f a).calls, (f a).outcome⟩
  | some (.error e) => ⟨m.calls, some (.error e)⟩
  | none => ⟨m.calls, none⟩

instance : Monad Recorded where
  pure a := ⟨[], some (.ok a)⟩
  bind := bind

/-- What is computed without a call. -/
def lift (m : Except SyntaxError α) : Recorded α := ⟨[], some m⟩

instance : MonadLift (Except SyntaxError) Recorded := ⟨lift⟩

/-- There is no fuel left. -/
def unfinished : Recorded α := ⟨[], none⟩

/-- The stream behind what is read. -/
def reached (m : Recorded (α × TokenStream)) : Option TokenStream :=
  match m.outcome with
  | some (.ok r) => some r.2
  | _ => none

/-- What is read, as a call of a part of the grammar. -/
def asCall (part : GrammarPart) (s : TokenStream) (m : Recorded (α × TokenStream)) :
    Recorded (α × TokenStream) :=
  ⟨⟨part, s, m.reached⟩ :: m.calls, m.outcome⟩

end Recorded

open Recorded (asCall unfinished)

mutual

/-- An operand, or paths with bars between them. -/
def recordUnion (limit : Nat) : Nat → TokenStream → Recorded (Expr × TokenStream)
  | 0, s => asCall .union s unfinished
  | fuel + 1, s => asCall .union s do
      let (first, s₁) ← recordBinary limit fuel loosestPower s
      if s₁.sees .pipe then
        let path ← unionOperand first s.peek.offset
        let (paths, s₂) ← recordPaths limit fuel s₁
        return (.union (path :: paths), s₂)
      else return (first, s₁)

/-- The further paths of a union, each behind its bar. -/
def recordPaths (limit : Nat) : Nat → TokenStream → Recorded (List (Path Expr) × TokenStream)
  | 0, s => asCall .paths s unfinished
  | fuel + 1, s => asCall .paths s do
      if s.sees .pipe then
        let inside := s.advance
        let (operand, s₁) ← recordBinary limit fuel loosestPower inside
        let path ← unionOperand operand inside.peek.offset
        let (paths, s₂) ← recordPaths limit fuel s₁
        return (path :: paths, s₂)
      else return ([], s)

/-- Operands joined by operators that bind at least with a given power. -/
def recordBinary (limit : Nat) : Nat → Nat → TokenStream → Recorded (Expr × TokenStream)
  | 0, _, s => asCall .binary s unfinished
  | fuel + 1, power, s => asCall .binary s do
      let inside ← s.enter limit
      let (left, s₁) ← recordPrefix limit fuel inside
      let (e, s₂) ← recordOperators limit fuel power left s₁
      return (e, s₂.leave)

/-- The operators behind a left operand, and their right operands. -/
def recordOperators (limit : Nat) :
    Nat → Nat → Expr → TokenStream → Recorded (Expr × TokenStream)
  | 0, _, _, s => asCall .operators s unfinished
  | fuel + 1, power, left, s => asCall .operators s do
      match binaryOp? s.peek.kind with
      | none => return (left, s)
      | some op =>
          if op.power < power then return (left, s)
          else
            let (right, s₁) ← recordBinary limit fuel (op.power + 1) s.advance
            recordOperators limit fuel power (.binary op left right) s₁

/-- An operand with the signs and negations before it. -/
def recordPrefix (limit : Nat) : Nat → TokenStream → Recorded (Expr × TokenStream)
  | 0, s => asCall .signed s unfinished
  | fuel + 1, s => asCall .signed s do
      if s.sees .not && !s.peekSecond.isSymbol .openParen then
        let (arg, s₁) ← recordBinary limit fuel notOperandPower s.advance
        return (.not arg, s₁)
      else if s.sees .minus then
        let (arg, s₁) ← recordBinary limit fuel negationPower s.advance
        return (.negate arg, s₁)
      else recordPrimary limit fuel s

/-- A literal, a call, a path, or an expression in parentheses. -/
def recordPrimary (limit : Nat) : Nat → TokenStream → Recorded (Expr × TokenStream)
  | 0, s => asCall .primary s unfinished
  | fuel + 1, s => asCall .primary s do
      match s.peek.kind with
      | .number value => return (.number value, s.advance)
      | .string value => return (.string value, s.advance)
      | .symbol .openParen =>
          let (e, s₁) ← recordUnion limit fuel s.advance
          let s₂ ← s₁.expect .closeParen
          return (e, s₂)
      | .symbol .not =>
          let (args, s₁) ← recordCall limit fuel "not" s
          match args.getLast? with
          | some arg => return (.not arg, s₁)
          | none => Recorded.lift (.error ⟨.arity "not" 1 0, s.peek.offset⟩)
      | .name name =>
          if s.peekSecond.isSymbol .openParen then
            let (args, s₁) ← recordCall limit fuel name s
            return (.call name args, s₁)
          else recordPath limit fuel s
      | found =>
          if startsStep found || (separatorAxis? found).isSome then recordPath limit fuel s
          else Recorded.lift (s.fault (.operand found))

/-- The arguments of a call whose name stands here. -/
def recordCall (limit : Nat) : Nat → String → TokenStream → Recorded (List Expr × TokenStream)
  | 0, _, s => asCall .call s unfinished
  | fuel + 1, name, s => asCall .call s do
      let inside ← s.advance.expect .openParen
      let (args, s₁) ←
        if inside.sees .closeParen then pure ([], inside) else recordArguments limit fuel inside
      let s₂ ← s₁.expect .closeParen
      let args ← checkCall name args s.peek.offset
      return (args, s₂)

/-- Arguments with commas between them. -/
def recordArguments (limit : Nat) : Nat → TokenStream → Recorded (List Expr × TokenStream)
  | 0, s => asCall .arguments s unfinished
  | fuel + 1, s => asCall .arguments s do
      let (arg, s₁) ← recordUnion limit fuel s
      if s₁.sees .comma then
        let (args, s₂) ← recordArguments limit fuel s₁.advance
        return (arg :: args, s₂)
      else return ([arg], s₁)

/-- A path. -/
def recordPath (limit : Nat) : Nat → TokenStream → Recorded (Expr × TokenStream)
  | 0, s => asCall .path s unfinished
  | fuel + 1, s => asCall .path s do
      let (absolute, axis, s₁) ← pathStart s
      let (steps, s₂) ← recordSteps limit fuel axis s₁
      return (pathExpr absolute steps, s₂)

/-- Steps with separators between them; an attribute step is the last one. -/
def recordSteps (limit : Nat) :
    Nat → Axis → TokenStream → Recorded (List (Step Expr) × TokenStream)
  | 0, _, s => asCall .step s unfinished
  | fuel + 1, axis, s => do
      let ((steps, test), s₂) ← asCall .step s do
        let (before, axis, test, s₁) ← stepStart axis s
        let (predicates, s₂) ← recordPredicates limit fuel test s₁
        return ((before ++ [⟨axis, test, predicates⟩], test), s₂)
      match separatorAxis? s₂.peek.kind with
      | none => return (steps, s₂)
      | some next =>
          if test.isAttribute then Recorded.lift (s₂.fault .attributeInside)
          else
            let (later, s₃) ← recordSteps limit fuel next s₂.advance
            return (steps ++ later, s₃)

/-- The predicates of a step; an attribute step has none. -/
def recordPredicates (limit : Nat) :
    Nat → NodeTest → TokenStream → Recorded (List Expr × TokenStream)
  | 0, _, s => asCall .predicates s unfinished
  | fuel + 1, test, s => asCall .predicates s do
      if s.sees .openBracket then
        if test.isAttribute then Recorded.lift (s.fault .attributePredicate)
        else
          let (predicate, s₁) ← recordUnion limit fuel s.advance
          let s₂ ← s₁.expect .closeBracket
          let (later, s₃) ← recordPredicates limit fuel test s₂
          return (positional predicate :: later, s₃)
      else return ([], s)

end

/-- The expression that a list of tokens writes, with the calls that are made for it. -/
def Expr.recordTokens (limit fuel : Nat) (tokens : List Token) : Recorded Expr := do
  let (e, rest) ← recordUnion limit fuel (TokenStream.ofTokens tokens)
  if rest.peek.kind.isStop then return e
  else Recorded.lift (rest.fault (.surplus rest.peek.kind))

end MarkupPath.Query
