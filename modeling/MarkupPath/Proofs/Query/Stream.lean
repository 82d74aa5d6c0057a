import MarkupPath.Proofs.Query.Phrase

/-!
# Reading from streams

What the grammar reads depends on the kinds of the unread tokens and on the nesting alone;
`TokenStream.At` gives both of a stream, and there is one lemma for each thing that the grammar does
to it. `Parses` says what a part of the grammar returns and where it leaves the stream, `Ensures`
what is true of both if it succeeds.

A part of the grammar stops at the tokens behind it: `Follows` holds of those that may stand behind
an operand, `Closes` of those that end every operand, and `Looser` of those that are no operator
with at least a given power.
-/

set_option autoImplicit false

namespace MarkupPath.Query

/-- The token that the kinds start with, or the end of the expression. -/
def upcoming (kinds : List TokenKind) : TokenKind := kinds.headD .stop

/-- The unread tokens have these kinds, and so many operands are being read. -/
structure TokenStream.At (s : TokenStream) (kinds : List TokenKind) (depth : Nat) : Prop where
  kinds : s.pending.map Token.kind = kinds
  depth : s.depth = depth

/-- The step succeeds, and leaves the stream where these kinds are unread. -/
def Moves (m : Except SyntaxError TokenStream) (kinds : List TokenKind) (depth : Nat) : Prop :=
  ∃ s, m = .ok s ∧ s.At kinds depth

/-- The part of the grammar reads this, and leaves the stream where these kinds are unread. -/
def Parses {α : Type} (m : Except SyntaxError (α × TokenStream)) (a : α) (kinds : List TokenKind)
    (depth : Nat) : Prop :=
  ∃ s, m = .ok (a, s) ∧ s.At kinds depth

variable {α β : Type} {a : α} {b : β} {ks ks' : List TokenKind} {d d' : Nat}

theorem Parses.pure {s : TokenStream} (h : s.At ks d) :
    Parses (Pure.pure (a, s) : Except SyntaxError (α × TokenStream)) a ks d :=
  ⟨s, rfl, h⟩

theorem Parses.bind {m : Except SyntaxError (α × TokenStream)}
    {f : α × TokenStream → Except SyntaxError (β × TokenStream)} (hm : Parses m a ks d)
    (hf : ∀ s, s.At ks d → Parses (f (a, s)) b ks' d') : Parses (m >>= f) b ks' d' := by
  obtain ⟨s, rfl, hs⟩ := hm
  exact hf s hs

theorem Moves.bind {m : Except SyntaxError TokenStream}
    {f : TokenStream → Except SyntaxError (β × TokenStream)} (hm : Moves m ks d)
    (hf : ∀ s, s.At ks d → Parses (f s) b ks' d') : Parses (m >>= f) b ks' d' := by
  obtain ⟨s, rfl, hs⟩ := hm
  exact hf s hs

/-! ## What the parts of the grammar return -/

/-- If the part of the grammar succeeds, its result and the stream behind it are such. -/
def Ensures {α : Type} (m : Except SyntaxError (α × TokenStream))
    (property : α → TokenStream → Prop) : Prop :=
  ∀ a s, m = .ok (a, s) → property a s

section

variable {P : α → TokenStream → Prop} {Q : β → TokenStream → Prop}

theorem Ensures.pure {s : TokenStream} (h : P a s) : Ensures (Pure.pure (a, s)) P := by
  intro a' s' hok
  cases hok
  exact h

theorem Ensures.error {e : SyntaxError} : Ensures (.error e) P := by
  intro a s hok
  cases hok

theorem Ensures.fault {s : TokenStream} {f : SyntaxFault} : Ensures (s.fault f) P := .error

theorem Ensures.bind {m : Except SyntaxError (α × TokenStream)}
    {f : α × TokenStream → Except SyntaxError (β × TokenStream)} (hm : Ensures m P)
    (hf : ∀ a s, P a s → Ensures (f (a, s)) Q) : Ensures (m >>= f) Q := by
  cases m with
  | error e => exact Ensures.error
  | ok r => exact hf r.1 r.2 (hm r.1 r.2 rfl)

/-- What is computed before a part of the grammar may fail. -/
theorem Ensures.bind_ok {γ : Type} {m : Except SyntaxError γ}
    {f : γ → Except SyntaxError (β × TokenStream)} (hf : ∀ c, m = .ok c → Ensures (f c) Q) :
    Ensures (m >>= f) Q := by
  cases m with
  | error e => exact Ensures.error
  | ok c => exact hf c rfl

end

/-! ## What a part of the grammar does where it succeeds -/

/-- The token that a name or a star is written with. -/
def NameTest.kind : NameTest → TokenKind
  | .wildcard => .symbol .star
  | .name value => .name value

namespace TokenStream

variable {s s' : TokenStream} {x : Symbol}

theorem kind_of_sees (h : s.sees x = true) : s.peek.kind = .symbol x := by
  rw [sees] at h
  cases hk : s.peek.kind with
  | symbol y =>
      rw [hk] at h
      rw [eq_of_beq h]
  | _ =>
      rw [hk] at h
      cases h

theorem expect_eq_ok (h : s.expect x = .ok s') : s.peek.kind = .symbol x ∧ s' = s.advance := by
  rw [expect] at h
  split at h
  · next hx =>
      cases h
      exact ⟨kind_of_sees hx, rfl⟩
  · cases h

/-- What stands before the end is among the unread tokens. -/
theorem pending_eq_cons (h : s.peek.kind.isStop = false) :
    s.pending = s.peek :: s.advance.pending := by
  rw [peek] at h ⊢
  rw [advance]
  cases hpending : s.pending with
  | nil =>
      rw [hpending] at h
      cases h
  | cons token rest => rfl

/-- An operand is entered where the limit admits one more. -/
theorem enter_eq_ok {limit : Nat} (h : s.enter limit = .ok s') :
    s.depth < limit ∧ s' = { s with depth := s.depth + 1 } := by
  rw [enter] at h
  split at h
  · cases h
  · next hlimit =>
      cases h
      exact ⟨Nat.lt_of_succ_le (Nat.le_of_not_gt hlimit), rfl⟩

end TokenStream

theorem kind_of_binaryOp? {k : TokenKind} {op : BinaryOp} (h : binaryOp? k = some op) :
    k = .symbol op.symbol := by
  unfold binaryOp? at h
  split at h <;> cases h <;> rfl

theorem kind_of_separatorAxis? {k : TokenKind} {axis : Axis} (h : separatorAxis? k = some axis) :
    ∃ separator : Separator, axis = separator.axis ∧ k = .symbol separator.symbol := by
  unfold separatorAxis? at h
  split at h
  · cases h
    exact ⟨.slash, rfl, rfl⟩
  · cases h
    exact ⟨.doubleSlash, rfl, rfl⟩
  · cases h

/-- A path starts at its first step, or with a separator that it passes. -/
theorem pathStart_eq_ok {s s' : TokenStream} {absolute : Bool} {axis : Axis}
    (h : pathStart s = .ok (absolute, axis, s')) :
    (absolute = false ∧ axis = Separator.slash.axis ∧ s' = s) ∨
      (absolute = true ∧ s' = s.advance ∧ ∃ separator : Separator, axis = separator.axis ∧
        s.peek.kind = .symbol separator.symbol) := by
  rw [pathStart] at h
  split at h
  · next hslash =>
      dsimp only at h
      split at h
      · cases h
        exact .inr ⟨rfl, rfl, .slash, rfl, TokenStream.kind_of_sees hslash⟩
      · cases h
  · split at h
    · next hslash =>
        cases h
        exact .inr ⟨rfl, rfl, .doubleSlash, rfl, TokenStream.kind_of_sees hslash⟩
    · cases h
      exact .inl ⟨rfl, rfl, rfl⟩

/-- How a step starts: the tokens that it passes, the steps before it, its axis and test, and the
stream behind. -/
inductive StepStart (axis : Axis) (s : TokenStream) :
    List (Step Expr) → Axis → NodeTest → TokenStream → Prop where
  | dot (hk : s.peek.kind = .symbol .dot) :
      StepStart axis s (splitAxis axis).1 .self .any s.advance
  | doubleDot (hk : s.peek.kind = .symbol .doubleDot) :
      StepStart axis s (splitAxis axis).1 .parent .any s.advance
  | element {test : NameTest} (hk : s.peek.kind = test.kind) :
      StepStart axis s [] axis (.element test) s.advance
  | attributeTest {test : NameTest} (hk : s.peek.kind = .symbol .atSign)
      (hname : s.advance.peek.kind = test.kind) :
      StepStart axis s (splitAxis axis).1 (splitAxis axis).2 (.attribute test) s.advance.advance

theorem stepStart_eq_ok {s s' : TokenStream} {axis axis' : Axis} {before : List (Step Expr)}
    {test : NodeTest} (h : stepStart axis s = .ok (before, axis', test, s')) :
    StepStart axis s before axis' test s' := by
  rw [stepStart] at h
  split at h
  · next hk =>
      cases h
      exact .dot hk
  · next hk =>
      cases h
      exact .doubleDot hk
  · next name hk =>
      cases h
      exact .element hk
  · next hk =>
      cases h
      exact .element hk
  · next hk =>
      dsimp only at h
      split at h
      · next name hname =>
          cases h
          exact .attributeTest hk hname
      · next hname =>
          cases h
          exact .attributeTest hk hname
      · cases h
  · cases h

/-! ## The nesting -/

/-- A step starts without entering or leaving an operand. -/
theorem StepStart.depth_eq {axis axis' : Axis} {before : List (Step Expr)} {test : NodeTest}
    {s s' : TokenStream} (h : StepStart axis s before axis' test s') : s'.depth = s.depth := by
  cases h <;> rfl

namespace TokenStream

variable {s s' : TokenStream}

theorem depth_advance (s : TokenStream) : s.advance.depth = s.depth := rfl

theorem depth_of_expect {x : Symbol} (h : s.expect x = .ok s') : s'.depth = s.depth := by
  obtain ⟨-, rfl⟩ := expect_eq_ok h
  rfl

theorem depth_of_pathStart {absolute : Bool} {axis : Axis}
    (h : pathStart s = .ok (absolute, axis, s')) : s'.depth = s.depth := by
  rcases pathStart_eq_ok h with ⟨-, -, rfl⟩ | ⟨-, rfl, -⟩ <;> rfl

theorem depth_ofTokens (ts : List Token) : (ofTokens ts).depth = 0 := by
  rw [ofTokens]
  split
  · rfl
  · split <;> rfl

end TokenStream

theorem splitAxis_axis (separator : Separator) :
    splitAxis separator.axis = (separator.descent, .child) := by
  cases separator <;> rfl

/-- An expression that is read from a list of tokens is read up to their end. -/
theorem parseUnion_of_ofTokens {limit : Nat} {tokens : List Token} {e : Expr}
    (h : Expr.ofTokens limit tokens = .ok e) :
    ∃ rest, parseUnion limit (TokenStream.ofTokens tokens).fuel (TokenStream.ofTokens tokens) =
      .ok (e, rest) ∧ rest.peek.kind.isStop = true := by
  simp only [Expr.ofTokens] at h
  cases hparse : parseUnion limit (TokenStream.ofTokens tokens).fuel
      (TokenStream.ofTokens tokens) with
  | error fault =>
      rw [hparse] at h
      cases h
  | ok r =>
      rw [hparse] at h
      simp only [bind, Except.bind] at h
      split at h
      · next hstop =>
          cases h
          exact ⟨r.2, rfl, hstop⟩
      · cases h

/-! ## Steps of a stream -/

namespace TokenStream.At

variable {s : TokenStream} {k : TokenKind}

theorem peek (h : s.At ks d) : s.peek.kind = upcoming ks := by
  rw [← h.kinds, TokenStream.peek]
  cases s.pending <;> rfl

theorem peek_cons (h : s.At (k :: ks) d) : s.peek.kind = k := h.peek

theorem peekSecond (h : s.At (k :: ks) d) : s.peekSecond = upcoming ks := by
  have hkinds := h.kinds
  rw [TokenStream.peekSecond]
  match hs : s.pending with
  | [] => simp [hs] at hkinds
  | [_] =>
      simp only [hs, List.map_cons, List.map_nil, List.cons.injEq] at hkinds
      simp [← hkinds.2, upcoming]
  | _ :: _ :: _ =>
      simp only [hs, List.map_cons, List.cons.injEq] at hkinds
      simp [← hkinds.2, upcoming]

theorem sees (h : s.At ks d) (x : Symbol) : s.sees x = (upcoming ks).isSymbol x := by
  rw [TokenStream.sees, h.peek]

theorem advance (h : s.At (k :: ks) d) : s.advance.At ks d := by
  refine ⟨?_, h.depth⟩
  have hkinds := congrArg List.tail h.kinds
  simpa [TokenStream.advance] using hkinds

theorem expect {x : Symbol} (h : s.At (.symbol x :: ks) d) : Moves (s.expect x) ks d := by
  refine ⟨s.advance, ?_, h.advance⟩
  simp [TokenStream.expect, h.sees, upcoming, TokenKind.isSymbol]

theorem enter {limit : Nat} (h : s.At ks d) (hlimit : d + 1 ≤ limit) :
    Moves (s.enter limit) ks (d + 1) := by
  refine ⟨{ s with depth := s.depth + 1 }, ?_, h.kinds, by rw [h.depth]⟩
  simp only [TokenStream.enter, h.depth]
  rw [if_neg (by omega)]

theorem leave (h : s.At ks (d + 1)) : s.leave.At ks d :=
  ⟨h.kinds, by simp [TokenStream.leave, h.depth]⟩

end TokenStream.At

/-! ## What may stand behind an operand -/

/-- An operand and all operators and paths around it end before this token. -/
def TokenKind.closes : TokenKind → Bool
  | .stop => true
  | .symbol .closeParen => true
  | .symbol .closeBracket => true
  | .symbol .comma => true
  | _ => false

/-- The kinds start with a token behind which no operand goes on. -/
def Closes (kinds : List TokenKind) : Prop := (upcoming kinds).closes = true

/-- The kinds start with a token that may stand behind an operand. -/
def Follows (kinds : List TokenKind) : Prop :=
  Closes kinds ∨ upcoming kinds = .symbol .pipe ∨ (binaryOp? (upcoming kinds)).isSome = true

/-- The kinds start with no operator that binds at least with this power. -/
def Looser (power : Nat) (kinds : List TokenKind) : Prop :=
  ∀ op, binaryOp? (upcoming kinds) = some op → op.power < power

theorem Looser.mono {m n : Nat} (h : Looser m ks) (hle : m ≤ n) : Looser n ks :=
  fun op hop => Nat.lt_of_lt_of_le (h op hop) hle

/-- Only a minus sign binds more tightly than every operator. -/
theorem power_bounds (op : BinaryOp) : loosestPower ≤ op.power ∧ op.power < negationPower := by
  cases op with
  | or => decide
  | and => decide
  | compare op => cases op <;> decide
  | arithmetic op => cases op <;> decide

theorem looser_negationPower : Looser negationPower ks :=
  fun op _ => (power_bounds op).2

namespace Closes

theorem follows (h : Closes ks) : Follows ks := .inl h

theorem binaryOp?_eq_none (h : Closes ks) : binaryOp? (upcoming ks) = none := by
  simp only [Closes, TokenKind.closes] at h
  split at h <;> simp_all [binaryOp?]

theorem looser (h : Closes ks) (m : Nat) : Looser m ks := by
  intro op hop
  simp [h.binaryOp?_eq_none] at hop

theorem isSymbol_pipe (h : Closes ks) : (upcoming ks).isSymbol .pipe = false := by
  simp only [Closes, TokenKind.closes] at h
  split at h <;> simp_all [TokenKind.isSymbol]

end Closes

/-- A path does not go on behind an operand. -/
theorem Follows.ends {ks : List TokenKind} (h : Follows ks) :
    separatorAxis? (upcoming ks) = none ∧ (upcoming ks).isSymbol .openBracket = false ∧
      (upcoming ks).isSymbol .openParen = false := by
  -- a closing token, a bar or an operator
  obtain h | h | h := h
  · simp only [Closes, TokenKind.closes] at h
    split at h <;> simp_all [separatorAxis?, TokenKind.isSymbol]
  · simp [h, separatorAxis?, TokenKind.isSymbol]
  · generalize upcoming ks = k at h
    cases k with
    | symbol s => cases s <;> simp_all [binaryOp?, separatorAxis?, TokenKind.isSymbol]
    | _ => simp [binaryOp?] at h

theorem binaryOp?_symbol (op : BinaryOp) : binaryOp? (.symbol op.symbol) = some op := by
  cases op with
  | or => rfl
  | and => rfl
  | compare op => cases op <;> rfl
  | arithmetic op => cases op <;> rfl

theorem follows_operator (op : BinaryOp) : Follows (.symbol op.symbol :: ks) := by
  refine .inr (.inr ?_)
  rw [upcoming, List.headD_cons, binaryOp?_symbol]
  rfl

theorem looser_operator {op : BinaryOp} {m : Nat} (h : op.power < m) :
    Looser m (.symbol op.symbol :: ks) := by
  intro op' hop
  rw [upcoming, List.headD_cons, binaryOp?_symbol] at hop
  cases hop
  exact h

theorem closes_symbol {x : Symbol} (h : (TokenKind.symbol x).closes = true) :
    Closes (.symbol x :: ks) := h

theorem follows_pipe : Follows (.symbol .pipe :: ks) := .inr (.inl rfl)

theorem looser_pipe {m : Nat} : Looser m (.symbol .pipe :: ks) := by
  intro op hop
  cases hop

end MarkupPath.Query
