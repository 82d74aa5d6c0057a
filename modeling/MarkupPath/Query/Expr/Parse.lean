import MarkupPath.Query.Expr
import MarkupPath.Query.Token.Read

/-!
# Expressions from tokens

The grammar of expressions, by binding power: an operator takes what binds at least as tightly as
itself on its left and more tightly on its right. `TokenStream` holds the unread tokens and the
current nesting of operands; `Expr.ofTokens` reads a whole list of tokens with a limit on that
nesting. Every function of the grammar passes a token before it calls itself again, so nine calls
per token bound the work; `fuel` counts them.
-/

set_option autoImplicit false

namespace MarkupPath.Query

/-! ## Streams of tokens -/

/-- The tokens before the end of the expression, the offset of that end, and the number of operands
that are being read inside each other. -/
structure TokenStream where
  pending : List Token
  stop : Nat
  depth : Nat
  deriving Repr

namespace TokenStream

/-- The stream of a list of tokens. A list that does not end with an end gets one, one character
behind the start of its last token. -/
def ofTokens (tokens : List Token) : TokenStream :=
  match tokens.getLast? with
  | none => ⟨[], 0, 0⟩
  | some last =>
      if last.kind.isStop then ⟨tokens.dropLast, last.offset, 0⟩ else ⟨tokens, last.offset + 1, 0⟩

/-- The next token. -/
def peek (s : TokenStream) : Token :=
  match s.pending with
  | token :: _ => token
  | [] => ⟨.stop, s.stop⟩

/-- The kind of the token behind the next one. -/
def peekSecond (s : TokenStream) : TokenKind :=
  match s.pending with
  | _ :: token :: _ => token.kind
  | _ => .stop

/-- The next token is a given symbol. -/
def sees (s : TokenStream) (symbol : Symbol) : Bool := s.peek.kind.isSymbol symbol

/-- The stream behind the next token; the end is never passed. -/
def advance (s : TokenStream) : TokenStream := { s with pending := s.pending.tail }

/-- A fault at the next token. -/
def fault {α : Type} (s : TokenStream) (f : SyntaxFault) : Except SyntaxError α :=
  .error ⟨f, s.peek.offset⟩

/-- The stream behind a symbol that has to stand here. -/
def expect (s : TokenStream) (symbol : Symbol) : Except SyntaxError TokenStream :=
  if s.sees symbol then .ok s.advance else s.fault (.missing symbol s.peek.kind)

/-- The stream inside one more operand. -/
def enter (s : TokenStream) (limit : Nat) : Except SyntaxError TokenStream :=
  if s.depth + 1 > limit then s.fault (.depth limit) else .ok { s with depth := s.depth + 1 }

/-- The stream outside the innermost operand. -/
def leave (s : TokenStream) : TokenStream := { s with depth := s.depth - 1 }

end TokenStream

/-! ## Operators -/

/-- The operator that a symbol writes between two operands. -/
def binaryOp? : TokenKind → Option BinaryOp
  | .symbol .or => some .or
  | .symbol .and => some .and
  | .symbol .equal => some (.compare .equal)
  | .symbol .notEqual => some (.compare .notEqual)
  | .symbol .less => some (.compare .less)
  | .symbol .lessEqual => some (.compare .lessEqual)
  | .symbol .greater => some (.compare .greater)
  | .symbol .greaterEqual => some (.compare .greaterEqual)
  | .symbol .plus => some (.arithmetic .add)
  | .symbol .minus => some (.arithmetic .sub)
  | .symbol .star => some (.arithmetic .mul)
  | .symbol .div => some (.arithmetic .div)
  | .symbol .mod => some (.arithmetic .mod)
  | _ => none

/-- How tightly an operator binds. -/
def BinaryOp.power : BinaryOp → Nat
  | .or => 1
  | .and => 2
  | .compare _ => 4
  | .arithmetic .add => 5
  | .arithmetic .sub => 5
  | .arithmetic .mul => 6
  | .arithmetic .div => 6
  | .arithmetic .mod => 6

/-- What the loosest operators bind with. -/
def loosestPower : Nat := 1

/-- What the operand of a `not` without parentheses has to bind with. -/
def notOperandPower : Nat := 4

/-- What the operand of a minus sign has to bind with, more than any operator. -/
def negationPower : Nat := 7

/-! ## Parts of the grammar -/

/-- The path that an operand of a union is; it selects elements. -/
def unionOperand (e : Expr) (offset : Nat) : Except SyntaxError (Path Expr) :=
  match e with
  | .path p => if p.endsInAttribute then .error ⟨.unionOperand, offset⟩ else .ok p
  | _ => .error ⟨.unionOperand, offset⟩

/-- A call of a known function with as many arguments as it takes. -/
def checkCall (name : String) (args : List Expr) (offset : Nat) :
    Except SyntaxError (List Expr) :=
  match arity? name with
  | none => .error ⟨.unknownFunction name, offset⟩
  | some arity =>
      if arity = args.length then .ok args else .error ⟨.arity name arity args.length, offset⟩

/-- The axis of a step behind this separator. -/
def separatorAxis? : TokenKind → Option Axis
  | .symbol .slash => some .child
  | .symbol .doubleSlash => some .descendantOrSelf
  | _ => none

/-- A step may start with this token. -/
def startsStep : TokenKind → Bool
  | .name _ => true
  | .symbol .star => true
  | .symbol .atSign => true
  | .symbol .dot => true
  | .symbol .doubleDot => true
  | _ => false

/-- How a path starts: whether at the document, the axis of its first step, and the stream there. -/
def pathStart (s : TokenStream) : Except SyntaxError (Bool × Axis × TokenStream) :=
  if s.sees .slash then
    let inside := s.advance
    if startsStep inside.peek.kind then .ok (true, .child, inside)
    else inside.fault (.stepAfterSlash inside.peek.kind)
  else if s.sees .doubleSlash then .ok (true, .descendantOrSelf, s.advance)
  else .ok (false, .child, s)

/-- The step through a whole subtree that `//` stands for before a dot or an attribute. -/
def subtreeStep : Step Expr := ⟨.descendantOrSelf, .any, []⟩

/-- The steps through the subtree that come before a step which cannot itself go down one, and the
axis that is left for it. -/
def splitAxis (axis : Axis) : List (Step Expr) × Axis :=
  match axis with
  | .descendantOrSelf => ([subtreeStep], .child)
  | axis => ([], axis)

/-- A step up to its predicates: the steps before it, its axis and test, and the stream behind. -/
def stepStart (axis : Axis) (s : TokenStream) :
    Except SyntaxError (List (Step Expr) × Axis × NodeTest × TokenStream) :=
  match s.peek.kind with
  | .symbol .dot => .ok ((splitAxis axis).1, .self, .any, s.advance)
  | .symbol .doubleDot => .ok ((splitAxis axis).1, .parent, .any, s.advance)
  | .name name => .ok ([], axis, .element (.name name), s.advance)
  | .symbol .star => .ok ([], axis, .element .wildcard, s.advance)
  | .symbol .atSign =>
      let inside := s.advance
      match inside.peek.kind with
      | .name name =>
          .ok ((splitAxis axis).1, (splitAxis axis).2, .attribute (.name name), inside.advance)
      | .symbol .star =>
          .ok ((splitAxis axis).1, (splitAxis axis).2, .attribute .wildcard, inside.advance)
      | found => inside.fault (.attributeName found)
  | found => s.fault (.step found)

/-- A predicate that is a number stands for the position. -/
def positional (e : Expr) : Expr :=
  match e with
  | .number value => .binary (.compare .equal) (.call "position" []) (.number value)
  | e => e

/-- A path as an expression: a relative path of a single attribute step is an attribute. -/
def pathExpr (absolute : Bool) (steps : List (Step Expr)) : Expr :=
  match absolute, steps with
  | false, [⟨.child, .attribute test, _⟩] => .attribute test
  | absolute, steps => .path ⟨absolute, steps⟩

/-! ## The grammar -/

mutual

/-- An operand, or paths with bars between them. -/
def parseUnion (limit : Nat) : Nat → TokenStream → Except SyntaxError (Expr × TokenStream)
  | 0, s => s.fault (.operand s.peek.kind)
  | fuel + 1, s => do
      let (first, s₁) ← parseBinary limit fuel loosestPower s
      if s₁.sees .pipe then
        let path ← unionOperand first s.peek.offset
        let (paths, s₂) ← parsePaths limit fuel s₁
        return (.union (path :: paths), s₂)
      else return (first, s₁)

/-- The further paths of a union, each behind its bar. -/
def parsePaths (limit : Nat) :
    Nat → TokenStream → Except SyntaxError (List (Path Expr) × TokenStream)
  | 0, s => s.fault (.operand s.peek.kind)
  | fuel + 1, s => do
      if s.sees .pipe then
        let inside := s.advance
        let (operand, s₁) ← parseBinary limit fuel loosestPower inside
        let path ← unionOperand operand inside.peek.offset
        let (paths, s₂) ← parsePaths limit fuel s₁
        return (path :: paths, s₂)
      else return ([], s)

/-- Operands joined by operators that bind at least with a given power. -/
def parseBinary (limit : Nat) : Nat → Nat → TokenStream → Except SyntaxError (Expr × TokenStream)
  | 0, _, s => s.fault (.operand s.peek.kind)
  | fuel + 1, power, s => do
      let inside ← s.enter limit
      let (left, s₁) ← parsePrefix limit fuel inside
      let (e, s₂) ← parseOperators limit fuel power left s₁
      return (e, s₂.leave)

/-- The operators behind a left operand, and their right operands. -/
def parseOperators (limit : Nat) :
    Nat → Nat → Expr → TokenStream → Except SyntaxError (Expr × TokenStream)
  | 0, _, _, s => s.fault (.operand s.peek.kind)
  | fuel + 1, power, left, s => do
      match binaryOp? s.peek.kind with
      | none => return (left, s)
      | some op =>
          if op.power < power then return (left, s)
          else
            let (right, s₁) ← parseBinary limit fuel (op.power + 1) s.advance
            parseOperators limit fuel power (.binary op left right) s₁

/-- An operand with the signs and negations before it. -/
def parsePrefix (limit : Nat) : Nat → TokenStream → Except SyntaxError (Expr × TokenStream)
  | 0, s => s.fault (.operand s.peek.kind)
  | fuel + 1, s => do
      if s.sees .not && !s.peekSecond.isSymbol .openParen then
        let (arg, s₁) ← parseBinary limit fuel notOperandPower s.advance
        return (.not arg, s₁)
      else if s.sees .minus then
        let (arg, s₁) ← parseBinary limit fuel negationPower s.advance
        return (.negate arg, s₁)
      else parsePrimary limit fuel s

/-- A literal, a call, a path, or an expression in parentheses. -/
def parsePrimary (limit : Nat) : Nat → TokenStream → Except SyntaxError (Expr × TokenStream)
  | 0, s => s.fault (.operand s.peek.kind)
  | fuel + 1, s => do
      match s.peek.kind with
      | .number value => return (.number value, s.advance)
      | .string value => return (.string value, s.advance)
      | .symbol .openParen =>
          let (e, s₁) ← parseUnion limit fuel s.advance
          let s₂ ← s₁.expect .closeParen
          return (e, s₂)
      | .symbol .not =>
          let (args, s₁) ← parseCall limit fuel "not" s
          -- the call has been checked to have one argument
          match args.getLast? with
          | some arg => return (.not arg, s₁)
          | none => .error ⟨.arity "not" 1 0, s.peek.offset⟩
      | .name name =>
          if s.peekSecond.isSymbol .openParen then
            let (args, s₁) ← parseCall limit fuel name s
            return (.call name args, s₁)
          else parsePath limit fuel s
      | found =>
          if startsStep found || (separatorAxis? found).isSome then parsePath limit fuel s
          else s.fault (.operand found)

/-- The arguments of a call whose name stands here. -/
def parseCall (limit : Nat) :
    Nat → String → TokenStream → Except SyntaxError (List Expr × TokenStream)
  | 0, _, s => s.fault (.operand s.peek.kind)
  | fuel + 1, name, s => do
      let inside ← s.advance.expect .openParen
      let (args, s₁) ←
        if inside.sees .closeParen then pure ([], inside) else parseArguments limit fuel inside
      let s₂ ← s₁.expect .closeParen
      let args ← checkCall name args s.peek.offset
      return (args, s₂)

/-- Arguments with commas between them. -/
def parseArguments (limit : Nat) :
    Nat → TokenStream → Except SyntaxError (List Expr × TokenStream)
  | 0, s => s.fault (.operand s.peek.kind)
  | fuel + 1, s => do
      let (arg, s₁) ← parseUnion limit fuel s
      if s₁.sees .comma then
        let (args, s₂) ← parseArguments limit fuel s₁.advance
        return (arg :: args, s₂)
      else return ([arg], s₁)

/-- A path. -/
def parsePath (limit : Nat) : Nat → TokenStream → Except SyntaxError (Expr × TokenStream)
  | 0, s => s.fault (.operand s.peek.kind)
  | fuel + 1, s => do
      let (absolute, axis, s₁) ← pathStart s
      let (steps, s₂) ← parseSteps limit fuel axis s₁
      return (pathExpr absolute steps, s₂)

/-- Steps with separators between them; an attribute step is the last one. -/
def parseSteps (limit : Nat) :
    Nat → Axis → TokenStream → Except SyntaxError (List (Step Expr) × TokenStream)
  | 0, _, s => s.fault (.operand s.peek.kind)
  | fuel + 1, axis, s => do
      let (before, axis, test, s₁) ← stepStart axis s
      let (predicates, s₂) ← parsePredicates limit fuel test s₁
      let steps := before ++ [⟨axis, test, predicates⟩]
      match separatorAxis? s₂.peek.kind with
      | none => return (steps, s₂)
      | some next =>
          if test.isAttribute then s₂.fault .attributeInside
          else
            let (later, s₃) ← parseSteps limit fuel next s₂.advance
            return (steps ++ later, s₃)

/-- The predicates of a step; an attribute step has none. -/
def parsePredicates (limit : Nat) :
    Nat → NodeTest → TokenStream → Except SyntaxError (List Expr × TokenStream)
  | 0, _, s => s.fault (.operand s.peek.kind)
  | fuel + 1, test, s => do
      if s.sees .openBracket then
        if test.isAttribute then s.fault .attributePredicate
        else
          let (predicate, s₁) ← parseUnion limit fuel s.advance
          let s₂ ← s₁.expect .closeBracket
          let (later, s₃) ← parsePredicates limit fuel test s₂
          return (positional predicate :: later, s₃)
      else return ([], s)

end

/-! ## Whole expressions -/

/-- The calls that reading a stream takes at most. -/
def TokenStream.fuel (s : TokenStream) : Nat := 9 * (s.pending.length + 1)

/-- The expression that a list of tokens writes, with operands nested at most `limit` deep. -/
def Expr.ofTokens (limit : Nat) (tokens : List Token) : Except SyntaxError Expr := do
  let s := TokenStream.ofTokens tokens
  let (e, rest) ← parseUnion limit s.fuel s
  if rest.peek.kind.isStop then return e else rest.fault (.surplus rest.peek.kind)

/-- How deep operands nest at most where no other limit is given. -/
def defaultDepth : Nat := 64

/-- The expression that a text writes, with operands nested at most `limit` deep. -/
def Expr.ofText (limit : Nat) (source : String) : Except SyntaxError Expr := do
  let tokens ← tokens source.toList
  Expr.ofTokens limit tokens

end MarkupPath.Query
