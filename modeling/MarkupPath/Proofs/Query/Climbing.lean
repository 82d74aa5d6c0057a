import MarkupPath.Proofs.Query.Stream

/-!
# Operators read back

`Reads` says that a part of the grammar reads given lexemes as a given result, whatever stands
behind them, as long as the calls that are left suffice for their number. The lemmas put such facts
together as the grammar puts its parts together; only an operand that is entered takes up a level.

Where operators of several powers meet, the left operand is not known before its right neighbour is
seen. `ReadsSpine` therefore speaks of the loop over operators while it runs: having read the
lexemes, it stands where it would stand with their expression as its left operand.
-/

set_option autoImplicit false

namespace MarkupPath.Query

variable {α : Type} {limit depth : Nat}

/-- With `slack` calls less than nine for each lexeme, and so many operands being read, the part of
the grammar reads the lexemes as `a` and stops behind them, if the tokens there admit it. -/
def Reads (slack depth : Nat) (parse : Nat → TokenStream → Except SyntaxError (α × TokenStream))
    (ends : List TokenKind → Prop) (xs : List Lexeme) (a : α) : Prop :=
  ∀ (fuel : Nat) (s : TokenStream) (rest : List TokenKind),
    s.At (xs.map Lexeme.kind ++ rest) depth → 0 < fuel → 9 * xs.length ≤ fuel + slack →
      ends rest → Parses (parse fuel s) a rest depth

/-- Every part of the grammar takes one unit of fuel before it reads, so it is enough to look at
fuel that is a successor. -/
theorem Reads.of_succ {slack : Nat}
    {parse : Nat → TokenStream → Except SyntaxError (α × TokenStream)}
    {ends : List TokenKind → Prop} {xs : List Lexeme} {a : α}
    (h : ∀ (fuel : Nat) (s : TokenStream) (rest : List TokenKind),
      s.At (xs.map Lexeme.kind ++ rest) depth → 9 * xs.length ≤ fuel + 1 + slack →
        ends rest → Parses (parse (fuel + 1) s) a rest depth) :
    Reads slack depth parse ends xs a := by
  intro fuel s rest hs hfuel hcalls hrest
  cases fuel with
  | zero => omega
  | succ fuel => exact h fuel s rest hs hcalls hrest

/-- The lexemes are read as an operand of brackets and calls. -/
def ReadsUnion (limit depth : Nat) (xs : List Lexeme) (e : Expr) : Prop :=
  Reads 2 depth (parseUnion limit) Closes xs e

/-- The lexemes are read as operands with operators that bind at least with a given power. -/
def ReadsBinary (limit depth power : Nat) (xs : List Lexeme) (e : Expr) : Prop :=
  Reads 3 depth (fun fuel => parseBinary limit fuel power)
    (fun rest => Follows rest ∧ Looser power rest) xs e

/-- The lexemes are read as an operand of operators. -/
def ReadsPrefix (limit depth : Nat) (xs : List Lexeme) (e : Expr) : Prop :=
  Reads 4 depth (parsePrefix limit) Follows xs e

/-- The lexemes are read as an operand without signs. -/
def ReadsPrimary (limit depth : Nat) (xs : List Lexeme) (e : Expr) : Prop :=
  Reads 5 depth (parsePrimary limit) Follows xs e

/-- The lexemes are read as the arguments of a call. -/
def ReadsArguments (limit depth : Nat) (xs : List Lexeme) (args : List Expr) : Prop :=
  Reads 1 depth (parseArguments limit) (fun rest => upcoming rest = .symbol .closeParen) xs args

/-- Where operators down to a power at most `power` are read, the lexemes leave the loop over
operators with their expression as the left operand. -/
def ReadsSpine (limit depth power : Nat) (xs : List Lexeme) (e : Expr) : Prop :=
  ∀ (fuel : Nat) (s : TokenStream) (rest : List TokenKind) (least : Nat),
    s.At (xs.map Lexeme.kind ++ rest) depth → 0 < fuel → 9 * xs.length ≤ fuel + 4 →
      Follows rest → least ≤ power → Looser (power + 1) rest →
      ∃ fuel' s', (parsePrefix limit fuel s >>= fun r => parseOperators limit fuel least r.1 r.2) =
          parseOperators limit fuel' least e s' ∧
        s'.At rest depth ∧ fuel + 1 ≤ fuel' + xs.length

/-- The lexemes start with one that is no closing parenthesis. -/
def Opens (xs : List Lexeme) : Prop :=
  ∃ x rest, xs = x :: rest ∧ x.kind.isSymbol .closeParen = false

theorem Opens.length_pos {xs : List Lexeme} (h : Opens xs) : 0 < xs.length := by
  obtain ⟨x, rest, rfl, -⟩ := h
  simp

theorem Opens.append {xs : List Lexeme} (h : Opens xs) (ys : List Lexeme) : Opens (xs ++ ys) := by
  obtain ⟨x, rest, rfl, hx⟩ := h
  exact ⟨x, rest ++ ys, rfl, hx⟩

theorem length_parenthesized (xs : List Lexeme) :
    (parenthesized xs).length = xs.length + 2 := by
  simp [parenthesized]

theorem opens_parenthesized (xs : List Lexeme) : Opens (parenthesized xs) :=
  ⟨_, _, rfl, rfl⟩

theorem length_le_length_operand (least power : Nat) (xs : List Lexeme) :
    xs.length ≤ (operand least power xs).length := by
  rw [operand]
  split
  · rw [length_parenthesized]
    omega
  · exact Nat.le_refl _

theorem Opens.operand {xs : List Lexeme} (h : Opens xs) (least power : Nat) :
    Opens (operand least power xs) := by
  rw [Query.operand]
  split
  · exact opens_parenthesized xs
  · exact h

/-! ## The loop over operators -/

theorem parseBinary_succ {fuel power : Nat} {s : TokenStream} :
    parseBinary limit (fuel + 1) power s = s.enter limit >>= fun inside =>
      (parsePrefix limit fuel inside >>= fun r => parseOperators limit fuel power r.1 r.2) >>=
        fun r => pure (r.1, r.2.leave) := by
  simp only [parseBinary, bind_assoc]

/-- The loop ends before an operator that binds too weakly. -/
theorem parseOperators_stop {fuel power : Nat} {left : Expr} {s : TokenStream}
    {ks : List TokenKind} {d : Nat} (hs : s.At ks d) (hlooser : Looser power ks) :
    parseOperators limit (fuel + 1) power left s = .ok (left, s) := by
  rw [parseOperators, hs.peek]
  cases hop : binaryOp? (upcoming ks) with
  | none => rfl
  | some op =>
      simp only [hlooser op hop, if_true]
      rfl

/-- The loop takes an operator that binds tightly enough, and its right operand. -/
theorem parseOperators_step {fuel power : Nat} {left : Expr} {s : TokenStream} {op : BinaryOp}
    {ks : List TokenKind} {d : Nat} (hs : s.At (.symbol op.symbol :: ks) d)
    (hpower : power ≤ op.power) :
    parseOperators limit (fuel + 1) power left s =
      parseBinary limit fuel (op.power + 1) s.advance >>= fun r =>
        parseOperators limit fuel power (.binary op left r.1) r.2 := by
  rw [parseOperators, hs.peek_cons, binaryOp?_symbol]
  simp only
  rw [if_neg (by omega)]

theorem ReadsSpine.mono {m n : Nat} {xs : List Lexeme} {e : Expr}
    (h : ReadsSpine limit depth n xs e) (hle : m ≤ n) : ReadsSpine limit depth m xs e := by
  intro fuel s rest least hs hfuel hcalls hrest hleast hlooser
  exact h fuel s rest least hs hfuel hcalls hrest (by omega) (hlooser.mono (by omega))

theorem ReadsPrefix.spine {xs : List Lexeme} {e : Expr} (h : ReadsPrefix limit depth xs e)
    (hxs : Opens xs) (power : Nat) : ReadsSpine limit depth power xs e := by
  intro fuel s rest least hs hfuel hcalls hrest _ _
  obtain ⟨s', heq, hs'⟩ := h fuel s rest hs hfuel hcalls hrest
  refine ⟨fuel, s', ?_, hs', ?_⟩
  · rw [heq]
    rfl
  · have := hxs.length_pos
    omega

/-- An operator with its operands: the left one may hold operators as weak as this one, the right
one only stronger ones. -/
theorem ReadsSpine.binary {op : BinaryOp} {xs ys : List Lexeme} {left right : Expr}
    (hleft : ReadsSpine limit depth op.power xs left) (hxs : Opens xs)
    (hright : ReadsBinary limit depth (op.power + 1) ys right) (hys : Opens ys) :
    ReadsSpine limit depth op.power (xs ++ .symbol op.symbol :: ys) (.binary op left right) := by
  intro fuel s rest least hs hfuel hcalls hrest hleast hlooser
  have hxs := hxs.length_pos
  have hys := hys.length_pos
  simp only [List.map_append, List.map_cons, List.append_assoc, List.cons_append,
    List.length_append, List.length_cons, Lexeme.kind] at hs hcalls ⊢
  obtain ⟨fuel₁, s₁, heq, hs₁, hspent⟩ := hleft fuel s _ least hs hfuel (by omega)
    (follows_operator op) hleast (looser_operator (Nat.lt_succ_self _))
  -- the left operand has taken at most one call of the loop for each of its lexemes but one
  obtain ⟨fuel₂, rfl⟩ : ∃ fuel₂, fuel₁ = fuel₂ + 1 := ⟨fuel₁ - 1, by omega⟩
  obtain ⟨s₂, hparse, hs₂⟩ : Parses (parseBinary limit fuel₂ (op.power + 1) s₁.advance) right rest
      depth :=
    hright fuel₂ s₁.advance rest hs₁.advance (by omega) (by omega) ⟨hrest, hlooser⟩
  refine ⟨fuel₂, s₂, ?_, hs₂, by omega⟩
  -- the loop goes on with the operator and its operands on its left
  rw [heq, parseOperators_step hs₁ hleast, hparse]
  rfl

/-- With the loop over operators left, the operand is read whole; inside, it counts as one operand
more. -/
theorem ReadsSpine.readsBinary {power : Nat} {xs : List Lexeme} {e : Expr}
    (h : ReadsSpine limit (depth + 1) power xs e) (hxs : Opens xs) (hlimit : depth + 1 ≤ limit) :
    ReadsBinary limit depth power xs e := by
  apply Reads.of_succ
  intro fuel s rest hs hcalls hrest
  have hxs := hxs.length_pos
  rw [parseBinary_succ]
  have henter : Moves (s.enter limit) (xs.map Lexeme.kind ++ rest) (depth + 1) :=
    hs.enter hlimit
  apply henter.bind
  intro inside hinside
  obtain ⟨fuel', s', heq, hs', hspent⟩ := h fuel inside rest power hinside (by omega)
    (by omega) hrest.1 (Nat.le_refl _) (hrest.2.mono (by omega))
  -- a call of the loop is left to find that no operator of this power follows
  obtain ⟨fuel', rfl⟩ : ∃ fuel₂, fuel' = fuel₂ + 1 := ⟨fuel' - 1, by omega⟩
  rw [heq, parseOperators_stop hs' hrest.2]
  exact Parses.pure hs'.leave

/-- In front of no bar an operand is the whole of what `parseUnion` reads. -/
theorem ReadsBinary.readsUnion {xs : List Lexeme} {e : Expr}
    (h : ReadsBinary limit depth loosestPower xs e) (hxs : Opens xs) :
    ReadsUnion limit depth xs e := by
  apply Reads.of_succ
  intro fuel s rest hs hcalls hrest
  have hxs := hxs.length_pos
  rw [parseUnion]
  apply Parses.bind (h fuel s rest hs (by omega) (by omega)
    ⟨hrest.follows, hrest.looser _⟩)
  intro s₁ hs₁
  simp only [hs₁.sees, hrest.isSymbol_pipe, Bool.false_eq_true, if_false]
  exact Parses.pure hs₁

/-! ## Signs -/

/-- The lexemes start with no sign: not with a minus, and with `not` only where arguments follow. -/
def Unsigned : List Lexeme → Prop
  | [] => False
  | .symbol .minus :: _ => False
  | .symbol .not :: later => upcoming (later.map Lexeme.kind) = .symbol .openParen
  | _ :: _ => True

/-- Lexemes that start with no sign are not taken for a signed operand: a `not` among them stands in
front of a parenthesis. -/
theorem Unsigned.sees {xs : List Lexeme} (h : Unsigned xs) {s : TokenStream}
    {rest : List TokenKind} {d : Nat} (hs : s.At (xs.map Lexeme.kind ++ rest) d) :
    (s.sees .not && !s.peekSecond.isSymbol .openParen) = false ∧ s.sees .minus = false := by
  cases xs with
  | nil => exact absurd h id
  | cons x later =>
      rw [hs.sees, hs.sees, hs.peekSecond]
      cases x with
      | symbol x =>
          cases x with
          | minus => exact absurd h id
          | not =>
              cases later with
              | nil => cases h
              | cons y later =>
                  have hy : y.kind = .symbol .openParen := h
                  have hopen : y.kind.isSymbol .openParen = true := by
                    rw [hy]
                    rfl
                  exact ⟨congrArg Bool.not hopen, rfl⟩
          | _ => exact ⟨rfl, rfl⟩
      | _ => exact ⟨rfl, rfl⟩

theorem ReadsPrimary.readsPrefix {xs : List Lexeme} {e : Expr} (h : ReadsPrimary limit depth xs e)
    (hxs : Opens xs) (hsign : Unsigned xs) : ReadsPrefix limit depth xs e := by
  apply Reads.of_succ
  intro fuel s rest hs hcalls hrest
  have hpos := hxs.length_pos
  -- without a sign in front the prefix is the operand behind it
  obtain ⟨hnot, hminus⟩ := hsign.sees hs
  rw [parsePrefix, hnot, hminus]
  exact h fuel s rest hs (by omega) (by omega) hrest

theorem ReadsBinary.negate {xs : List Lexeme} {e : Expr}
    (h : ReadsBinary limit depth negationPower xs e) (hxs : Opens xs) :
    ReadsPrefix limit depth (.symbol .minus :: xs) (.negate e) := by
  apply Reads.of_succ
  intro fuel s rest hs hcalls hrest
  have hpos := hxs.length_pos
  have hnot : s.sees .not = false := hs.sees .not
  have hminus : s.sees .minus = true := hs.sees .minus
  simp only [List.map_cons, List.cons_append, List.length_cons] at hs hcalls
  simp only [parsePrefix, hnot, hminus, Bool.false_and, Bool.false_eq_true, if_false, if_true]
  apply Parses.bind (h fuel s.advance rest hs.advance (by omega) (by omega)
    ⟨hrest, looser_negationPower⟩)
  intro s₁ hs₁
  exact Parses.pure hs₁

/-! ## Literals and parentheses -/

theorem readsPrimary_number (n : Numeral) :
    ReadsPrimary limit depth [.number n] (.number n.value) := by
  apply Reads.of_succ
  intro fuel s rest hs _ _
  rw [parsePrimary, hs.peek_cons]
  exact Parses.pure hs.advance

theorem readsPrimary_string (l : Literal) :
    ReadsPrimary limit depth [.string l] (.string l.text) := by
  apply Reads.of_succ
  intro fuel s rest hs _ _
  rw [parsePrimary, hs.peek_cons]
  exact Parses.pure hs.advance

/-- Parentheses may be put around any expression, and what is read is the same. -/
theorem ReadsUnion.parenthesized {xs : List Lexeme} {e : Expr} (h : ReadsUnion limit depth xs e)
    (hxs : Opens xs) : ReadsPrimary limit depth (parenthesized xs) e := by
  apply Reads.of_succ
  intro fuel s rest hs hcalls hrest
  have hpos := hxs.length_pos
  simp only [Query.parenthesized, List.map_cons, List.map_append, List.map_nil, List.cons_append,
    List.append_assoc, List.nil_append, List.length_cons, List.length_append, List.length_nil,
    Lexeme.kind] at hs hcalls
  rw [parsePrimary, hs.peek_cons]
  apply Parses.bind (h fuel s.advance _ hs.advance (by omega) (by omega) (closes_symbol rfl))
  intro s₁ hs₁
  apply hs₁.expect.bind
  intro s₂ hs₂
  exact Parses.pure hs₂

/-! ## Calls -/

/-- The last argument of a call, with no comma behind it. -/
theorem ReadsUnion.lastArgument {xs : List Lexeme} {e : Expr} (h : ReadsUnion limit depth xs e)
    (hxs : Opens xs) : ReadsArguments limit depth xs [e] := by
  apply Reads.of_succ
  intro fuel s rest hs hcalls hrest
  have hpos := hxs.length_pos
  rw [parseArguments]
  have hcloses : Closes rest := by
    rw [Closes, hrest]
    rfl
  apply Parses.bind (h fuel s rest hs (by omega) (by omega) hcloses)
  intro s₁ hs₁
  simp only [hs₁.sees, hrest, TokenKind.isSymbol]
  exact Parses.pure hs₁

theorem ReadsArguments.cons {xs ys : List Lexeme} {e : Expr} {args : List Expr}
    (hargs : ReadsArguments limit depth ys args) (h : ReadsUnion limit depth xs e) (hxs : Opens xs)
    (hys : Opens ys) : ReadsArguments limit depth (xs ++ .symbol .comma :: ys) (e :: args) := by
  apply Reads.of_succ
  intro fuel s rest hs hcalls hrest
  have hx := hxs.length_pos
  have hy := hys.length_pos
  simp only [List.map_append, List.map_cons, List.append_assoc, List.cons_append,
    List.length_append, List.length_cons, Lexeme.kind] at hs hcalls
  rw [parseArguments]
  apply Parses.bind (h fuel s _ hs (by omega) (by omega) (closes_symbol rfl))
  intro s₁ hs₁
  have hcomma : s₁.sees .comma = true := hs₁.sees .comma
  simp only [hcomma, if_true]
  apply Parses.bind (hargs fuel s₁.advance rest hs₁.advance (by omega) (by omega) hrest)
  intro s₂ hs₂
  exact Parses.pure hs₂

/-- What is read between the parentheses of a call: nothing, or arguments. -/
def ReadsInside (limit depth : Nat) (xs : List Lexeme) (args : List Expr) : Prop :=
  xs = [] ∧ args = [] ∨ Opens xs ∧ ReadsArguments limit depth xs args

/-- A call of a function with as many arguments as it takes, behind any lexeme for its name. -/
theorem ReadsInside.call {xs : List Lexeme} {args : List Expr} {name : String}
    (h : ReadsInside limit depth xs args) (harity : arity? name = some args.length) (x : Lexeme) :
    Reads 6 depth (fun fuel => parseCall limit fuel name) (fun _ => True)
      (x :: parenthesized xs) args := by
  apply Reads.of_succ
  intro fuel s rest hs hcalls _
  simp only [parenthesized, List.map_cons, List.map_append, List.map_nil, List.cons_append,
    List.append_assoc, List.nil_append, List.length_cons, List.length_append, List.length_nil,
    Lexeme.kind] at hs hcalls
  rw [parseCall]
  apply hs.advance.expect.bind
  intro inside hinside
  -- the end of the call is the same with and without arguments
  have hclose : ∀ s₁ : TokenStream, s₁.At (.symbol .closeParen :: rest) depth →
      Parses (s₁.expect .closeParen >>= fun s₂ =>
        checkCall name args s.peek.offset >>= fun args => pure (args, s₂)) args rest depth := by
    intro s₁ hs₁
    apply hs₁.expect.bind
    intro s₂ hs₂
    have hcheck : checkCall name args s.peek.offset = .ok args := by simp [checkCall, harity]
    rw [hcheck]
    exact Parses.pure hs₂
  obtain ⟨rfl, rfl⟩ | ⟨hxs, hargs⟩ := h
  · have hnone : inside.sees .closeParen = true := hinside.sees .closeParen
    simp only [hnone, if_true]
    exact hclose inside hinside
  · have hpos := hxs.length_pos
    have hsome : inside.sees .closeParen = false := by
      obtain ⟨y, ys, rfl, hy⟩ := hxs
      exact (hinside.sees .closeParen).trans hy
    simp only [hsome, Bool.false_eq_true, if_false]
    apply Parses.bind (hargs fuel inside _ hinside (by omega) (by omega) rfl)
    exact hclose

/-- A call by name, with the arguments that its function takes. -/
theorem ReadsInside.readsPrimary {xs : List Lexeme} {args : List Expr} {w : Word}
    (h : ReadsInside limit depth xs args) (harity : arity? w.text = some args.length) :
    ReadsPrimary limit depth (.name w :: parenthesized xs) (.call w.text args) := by
  apply Reads.of_succ
  intro fuel s rest hs hcalls _
  have hopen : s.peekSecond.isSymbol .openParen = true := by rw [hs.peekSecond]; rfl
  rw [parsePrimary, hs.peek_cons]
  simp only [Lexeme.kind, hopen, if_true]
  simp only [List.length_cons, length_parenthesized] at hcalls
  apply Parses.bind (h.call harity (.name w) fuel s rest hs (by omega)
    (by simp only [List.length_cons, length_parenthesized]; omega) trivial)
  intro s₁ hs₁
  exact Parses.pure hs₁

/-- The word `not` in front of a parenthesis is a call with one argument. -/
theorem ReadsUnion.not {xs : List Lexeme} {e : Expr} (h : ReadsUnion limit depth xs e)
    (hxs : Opens xs) :
    ReadsPrimary limit depth (.symbol .not :: Query.parenthesized xs) (.not e) := by
  apply Reads.of_succ
  intro fuel s rest hs hcalls _
  have hinside : ReadsInside limit depth xs [e] := .inr ⟨hxs, h.lastArgument hxs⟩
  rw [parsePrimary, hs.peek_cons]
  simp only [List.length_cons, length_parenthesized] at hcalls
  apply Parses.bind (hinside.call rfl (.symbol .not) fuel s rest hs (by omega)
    (by simp only [List.length_cons, length_parenthesized]; omega) trivial)
  intro s₁ hs₁
  exact Parses.pure hs₁

/-! ## Operands of operators -/

/-- The lexemes start as those of an operand without signs do, and are read as one. -/
structure ReadsOperand (limit depth : Nat) (xs : List Lexeme) (e : Expr) : Prop where
  opens : Opens xs
  unsigned : Unsigned xs
  reads : ReadsPrimary limit depth xs e

theorem ReadsOperand.readsPrefix {xs : List Lexeme} {e : Expr}
    (h : ReadsOperand limit depth xs e) : ReadsPrefix limit depth xs e :=
  h.reads.readsPrefix h.opens h.unsigned

theorem ReadsOperand.readsBinary {xs : List Lexeme} {e : Expr}
    (h : ReadsOperand limit (depth + 1) xs e) (hlimit : depth + 1 ≤ limit) :
    ReadsBinary limit depth loosestPower xs e :=
  (h.readsPrefix.spine h.opens _).readsBinary h.opens hlimit

/-- The lexemes are read as the expression, as a whole and, unless they bind less tightly than every
operator, among the operands of operators that bind no tighter than they do. -/
structure ReadsAs (limit depth power : Nat) (xs : List Lexeme) (e : Expr) : Prop where
  opens : Opens xs
  union : ReadsUnion limit depth xs e
  spine : loosestPower ≤ power → ReadsSpine limit (depth + 1) power xs e

namespace ReadsAs

variable {power : Nat} {xs ys : List Lexeme} {e e' : Expr}

theorem of_spine (h : ReadsSpine limit (depth + 1) power xs e) (hopens : Opens xs)
    (hpower : loosestPower ≤ power) (hlimit : depth + 1 ≤ limit) :
    ReadsAs limit depth power xs e where
  opens := hopens
  union := ((h.mono hpower).readsBinary hopens hlimit).readsUnion hopens
  spine _ := h

theorem of_readsPrefix (h : ReadsPrefix limit (depth + 1) xs e) (hopens : Opens xs)
    (hlimit : depth + 1 ≤ limit) : ReadsAs limit depth negationPower xs e :=
  of_spine (h.spine hopens _) hopens (by decide) hlimit

theorem of_operand (h : ReadsOperand limit (depth + 1) xs e) (hlimit : depth + 1 ≤ limit) :
    ReadsAs limit depth negationPower xs e :=
  of_readsPrefix h.readsPrefix h.opens hlimit

/-- What binds tightly enough is an operand of an operator as it stands. -/
theorem readsBinary (h : ReadsAs limit depth power xs e) {least : Nat}
    (hleast : loosestPower ≤ least) (hpower : least ≤ power) (hlimit : depth + 1 ≤ limit) :
    ReadsBinary limit depth least xs e :=
  ((h.spine (Nat.le_trans hleast hpower)).mono hpower).readsBinary h.opens hlimit

/-- In parentheses the lexemes are an operand like a literal. -/
theorem parenthesized (h : ReadsAs limit depth power xs e) :
    ReadsOperand limit depth (parenthesized xs) e where
  opens := opens_parenthesized xs
  unsigned := trivial
  reads := h.union.parenthesized h.opens

theorem negate (h : ReadsBinary limit (depth + 1) negationPower xs e) (hopens : Opens xs)
    (hlimit : depth + 1 ≤ limit) :
    ReadsAs limit depth negationPower (.symbol .minus :: xs) (.negate e) :=
  of_readsPrefix (ReadsBinary.negate h hopens) ⟨_, _, rfl, rfl⟩ hlimit

/-- An operator with its operands binds as tightly as the operator does. -/
theorem binary {op : BinaryOp} (hleft : ReadsSpine limit (depth + 1) op.power xs e)
    (hxs : Opens xs) (hright : ReadsBinary limit (depth + 1) (op.power + 1) ys e') (hys : Opens ys)
    (hlimit : depth + 1 ≤ limit) :
    ReadsAs limit depth op.power (xs ++ .symbol op.symbol :: ys) (.binary op e e') :=
  of_spine (hleft.binary hxs hright hys) (hxs.append _) (power_bounds op).1 hlimit

end ReadsAs

end MarkupPath.Query
