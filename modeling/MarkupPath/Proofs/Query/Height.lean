import MarkupPath.Proofs.Query.Derivation
import MarkupPath.Proofs.Query.RoundTrip

/-!
# The height of what is read

The limit on nesting counts the operands that the grammar reads inside each other. An expression
grows by them, two levels of it for each (a path or a call, and an operator around it), but also in
the loop that reads operators: every operator which takes the expression before it as its left
operand puts one more level on it, and none of them counts. `Expr.height` is the length of the
longest chain of expressions in each other, `Expr.links` the number of such operators on a chain,
and `height_le_of_ofText` says that the limit bounds the height up to them. It does not bound the
height itself (`exists_higher`).
-/

set_option autoImplicit false

namespace MarkupPath.Query

/-! ## Chains of expressions -/

section

variable (node : Nat) (link : BinaryOp → Expr → Nat)

mutual

/-- The heaviest chain of expressions that starts here, each an operand, an argument or a predicate
of the one before. An expression weighs `node`, and the way from an operator to its left operand
`link`. -/
def Expr.heaviest : Expr → Nat
  | .path p => node + Expr.heaviestPath p
  | .union paths => node + Expr.heaviestPaths paths
  | .attribute _ => node
  | .binary op left right => node + max (link op left + Expr.heaviest left) (Expr.heaviest right)
  | .not arg => node + Expr.heaviest arg
  | .negate arg => node + Expr.heaviest arg
  | .call _ args => node + Expr.heaviestList args
  | .number _ => node
  | .string _ => node

/-- The heaviest chain that starts at a predicate of the path. -/
def Expr.heaviestPath : Path Expr → Nat
  | ⟨_, steps⟩ => Expr.heaviestSteps steps

/-- The heaviest chain that starts at a predicate of a path. -/
def Expr.heaviestPaths : List (Path Expr) → Nat
  | [] => 0
  | p :: rest => max (Expr.heaviestPath p) (Expr.heaviestPaths rest)

/-- The heaviest chain that starts at a predicate of a step. -/
def Expr.heaviestSteps : List (Step Expr) → Nat
  | [] => 0
  | s :: rest => max (Expr.heaviestStep s) (Expr.heaviestSteps rest)

/-- The heaviest chain that starts at a predicate of the step. -/
def Expr.heaviestStep : Step Expr → Nat
  | ⟨_, _, predicates⟩ => Expr.heaviestList predicates

/-- The heaviest chain that starts at one of the expressions. -/
def Expr.heaviestList : List Expr → Nat
  | [] => 0
  | e :: rest => max (Expr.heaviest e) (Expr.heaviestList rest)

end

namespace Expr

variable {node link}

theorem heaviest_path (p : Path Expr) :
    (Expr.path p).heaviest node link = node + heaviestPath node link p := rfl

theorem heaviest_union (paths : List (Path Expr)) :
    (Expr.union paths).heaviest node link = node + heaviestPaths node link paths := rfl

theorem heaviest_binary (op : BinaryOp) (left right : Expr) :
    (Expr.binary op left right).heaviest node link =
      node + max (link op left + left.heaviest node link) (right.heaviest node link) := rfl

theorem heaviest_not (arg : Expr) :
    (Expr.not arg).heaviest node link = node + arg.heaviest node link := rfl

theorem heaviest_negate (arg : Expr) :
    (Expr.negate arg).heaviest node link = node + arg.heaviest node link := rfl

theorem heaviest_call (name : String) (args : List Expr) :
    (Expr.call name args).heaviest node link = node + heaviestList node link args := rfl

theorem heaviestPath_mk (absolute : Bool) (steps : List (Step Expr)) :
    heaviestPath node link ⟨absolute, steps⟩ = heaviestSteps node link steps := rfl

theorem heaviestPaths_nil : heaviestPaths node link [] = 0 := rfl

theorem heaviestPaths_cons (p : Path Expr) (rest : List (Path Expr)) :
    heaviestPaths node link (p :: rest) =
      max (heaviestPath node link p) (heaviestPaths node link rest) := rfl

theorem heaviestSteps_cons (axis : Axis) (test : NodeTest) (predicates : List Expr)
    (rest : List (Step Expr)) :
    heaviestSteps node link (⟨axis, test, predicates⟩ :: rest) =
      max (heaviestList node link predicates) (heaviestSteps node link rest) := rfl

theorem heaviestList_cons (e : Expr) (rest : List Expr) :
    heaviestList node link (e :: rest) =
      max (e.heaviest node link) (heaviestList node link rest) := rfl

end Expr

end

/-- The left operand goes on to its left with operators that bind no less tightly, so that it needs
no parentheses. -/
def BinaryOp.continues (op : BinaryOp) : Expr → Bool
  | .binary inner _ _ => op.power ≤ inner.power
  | _ => false

/-- Length of the longest chain of expressions, each an operand, an argument or a predicate of the
one before. -/
def Expr.height (e : Expr) : Nat := e.heaviest 1 fun _ _ => 0

/-- The largest number of operators on a chain that it leaves for a left operand which they
continue. -/
def Expr.links (e : Expr) : Nat := e.heaviest 0 fun op left => if op.continues left then 1 else 0

/-! ## Bounds up to links -/

/-- The expression is at most so high, not counting the operators that continue their left
operand. -/
def Expr.Within (levels : Nat) (e : Expr) : Prop := e.height ≤ levels + e.links

namespace Expr.Within

variable {k : Nat} {e left right : Expr} {op : BinaryOp}

theorem mono {n : Nat} (h : e.Within k) (hle : k ≤ n) : e.Within n :=
  Nat.le_trans h (Nat.add_le_add_right hle _)

theorem number (value : Float) : (Expr.number value).Within 1 := Nat.le_refl _

theorem string (value : String) : (Expr.string value).Within 1 := Nat.le_refl _

theorem not (h : e.Within k) : (Expr.not e).Within (k + 1) := by
  unfold Within height links at *
  simp only [heaviest_not]
  omega

theorem negate (h : e.Within k) : (Expr.negate e).Within (k + 1) := by
  unfold Within height links at *
  simp only [heaviest_negate]
  omega

/-- An operator is one level more than its operands. -/
theorem binary (hleft : left.Within k) (hright : right.Within k) :
    (Expr.binary op left right).Within (k + 1) := by
  unfold Within height links at *
  simp only [heaviest_binary]
  omega

/-- An operator that continues its left operand is no level more. -/
theorem binary_continues (hop : op.continues left = true) (hleft : left.Within (k + 1))
    (hright : right.Within k) : (Expr.binary op left right).Within (k + 1) := by
  unfold Within height links at *
  simp only [heaviest_binary, hop, if_true]
  omega

theorem list {es : List Expr} (h : ∀ e ∈ es, e.Within k) :
    Expr.heaviestList 1 (fun _ _ => 0) es ≤
      k + Expr.heaviestList 0 (fun op left => if op.continues left then 1 else 0) es := by
  induction es with
  | nil => exact Nat.zero_le _
  | cons e es ih =>
      obtain ⟨he, hes⟩ := List.forall_mem_cons.1 h
      have := ih hes
      unfold Within height links at he
      simp only [heaviestList_cons]
      omega

theorem call {args : List Expr} (name : String) (h : ∀ e ∈ args, e.Within k) :
    (Expr.call name args).Within (k + 1) := by
  have := list h
  unfold Within height links
  simp only [heaviest_call]
  omega

theorem steps {steps : List (Step Expr)} (h : ∀ s ∈ steps, ∀ e ∈ s.predicates, e.Within k) :
    Expr.heaviestSteps 1 (fun _ _ => 0) steps ≤
      k + Expr.heaviestSteps 0 (fun op left => if op.continues left then 1 else 0) steps := by
  induction steps with
  | nil => exact Nat.zero_le _
  | cons s steps ih =>
      obtain ⟨hs, hsteps⟩ := List.forall_mem_cons.1 h
      obtain ⟨axis, test, predicates⟩ := s
      have := ih hsteps
      have : Expr.heaviestList 1 _ predicates ≤ k + Expr.heaviestList 0 _ predicates := list hs
      simp only [heaviestSteps_cons]
      omega

/-- A path is one level more than the predicates of its steps. -/
theorem path {absolute : Bool} {steps : List (Step Expr)}
    (h : ∀ s ∈ steps, ∀ e ∈ s.predicates, e.Within k) :
    (Expr.path ⟨absolute, steps⟩).Within (k + 1) := by
  have := Within.steps h
  unfold Within height links
  simp only [heaviest_path, heaviestPath_mk]
  omega

theorem pathExpr {absolute : Bool} {steps : List (Step Expr)}
    (h : ∀ s ∈ steps, ∀ e ∈ s.predicates, e.Within k) :
    (pathExpr absolute steps).Within (k + 1) := by
  unfold Query.pathExpr
  split
  · exact Nat.le_add_left 1 _
  · exact path h

/-- A union is as high as its paths. -/
theorem union {p : Path Expr} {paths : List (Path Expr)}
    (h : ∀ q ∈ p :: paths, (Expr.path q).Within k) : (Expr.union (p :: paths)).Within k := by
  induction paths generalizing p with
  | nil =>
      have hp := h p (List.mem_singleton_self p)
      unfold Within height links at *
      simp only [heaviest_path, heaviest_union, heaviestPaths_cons, heaviestPaths_nil] at *
      omega
  | cons q paths ih =>
      have hp := h p List.mem_cons_self
      have hq := ih fun r hr => h r (List.mem_cons_of_mem p hr)
      unfold Within height links at *
      simp only [heaviest_path, heaviest_union, heaviestPaths_cons] at *
      omega

/-- A predicate that is a number becomes a comparison with the position. -/
theorem positional (h : e.Within (k + 2)) : (Query.positional e).Within (k + 2) := by
  unfold Query.positional
  split
  · exact Nat.le_add_left 2 k
  · exact h

end Expr.Within

/-! ## Levels that are left -/

section

variable {limit levels : Nat}

/-- What the loop over operators has on its left: an operand, or operators that whatever operator
stands next continues. -/
inductive LeftOperand (levels : Nat) (s : TokenStream) : Expr → Prop where
  | operand {e : Expr} (h : e.Within (levels + 1)) : LeftOperand levels s e
  | operator {op : BinaryOp} {left right : Expr}
      (h : (Expr.binary op left right).Within (levels + 2)) (hnext : s.Looser (op.power + 1)) :
      LeftOperand levels s (.binary op left right)

theorem LeftOperand.within {s : TokenStream} {e : Expr} (h : LeftOperand levels s e) :
    e.Within (levels + 2) := by
  cases h with
  | operand h => exact h.mono (Nat.le_succ _)
  | operator h _ => exact h

/-- The next operator and its right operand make a left operand again. -/
theorem LeftOperand.binary {s s' : TokenStream} {op : BinaryOp} {left right : Expr}
    (h : LeftOperand levels s left) (hop : binaryOp? s.peek.kind = some op)
    (hright : right.Within levels) (hnext : s'.Looser (op.power + 1)) :
    LeftOperand levels s' (.binary op left right) := by
  refine .operator ?_ hnext
  have hright' : right.Within (levels + 1) := hright.mono (Nat.le_succ _)
  cases h with
  | operand h => exact .binary h hright'
  | @operator inner _ _ h hinner =>
      have hle : op.power ≤ inner.power := Nat.le_of_lt_succ (hinner op hop)
      exact .binary_continues (decide_eq_true hle) h hright'

/-- So many levels bound what is read, with one more for an operand behind its signs and two more
for the operators behind a left operand. An operand that is read has been entered, which takes two
levels, and no operator stands behind it that would belong to it. -/
def Constituent.Within (levels : Nat) (s s' : TokenStream) : Constituent → Prop
  | .union e => 2 ≤ levels ∧ e.Within levels
  | .paths ps => ∀ p ∈ ps, (Expr.path p).Within levels
  | .binary power e => 2 ≤ levels ∧ e.Within levels ∧ s'.Looser power
  | .operators power left e =>
      LeftOperand levels s left → e.Within (levels + 2) ∧ s'.Looser power
  | .signed e => e.Within (levels + 1)
  | .primary e => e.Within (levels + 1)
  | .call _ args => ∀ e ∈ args, e.Within levels
  | .arguments args => ∀ e ∈ args, e.Within levels
  | .path e => e.Within (levels + 1)
  | .steps _ _ ss => ∀ step ∈ ss, ∀ e ∈ step.predicates, e.Within levels
  | .predicates _ es => ∀ e ∈ es, (positional e).Within levels

/-- The step through a subtree that may come before a step has no predicates. -/
theorem StepStart.predicates_eq_nil {axis axis' : Axis} {before : List (Step Expr)}
    {test : NodeTest} {s s' : TokenStream} (h : StepStart axis s before axis' test s') :
    ∀ step ∈ before, step.predicates = [] := by
  have hsplit : ∀ step ∈ (splitAxis axis).1, step.predicates = [] := by
    intro step hstep
    cases axis with
    | descendantOrSelf => rw [List.mem_singleton.1 hstep]; rfl
    | _ => cases hstep
  cases h with
  | element => exact List.forall_mem_nil _
  | _ => exact hsplit

/-- The predicates of a step are those of the last one that its start and its test make. -/
theorem StepStart.within {axis axis' : Axis} {before : List (Step Expr)} {test : NodeTest}
    {s s' : TokenStream} {es : List Expr} (h : StepStart axis s before axis' test s')
    (hes : ∀ e ∈ es, (positional e).Within levels) :
    ∀ step ∈ before ++ [⟨axis', test, es.map positional⟩], ∀ e ∈ step.predicates,
      e.Within levels := by
  refine List.forall_mem_append.2 ⟨fun step hstep => ?_, List.forall_mem_singleton.2 ?_⟩
  · rw [h.predicates_eq_nil step hstep]
    exact List.forall_mem_nil _
  · exact List.forall_mem_map.2 hes

/-- Twice the levels that are left bounds what is derived. -/
theorem Derives.within {s s' : TokenStream} {c : Constituent} (h : Derives limit s c s') :
    c.Within (2 * (limit - s.depth)) s s' := by
  induction h with
  | operand _ ih => exact ⟨ih.1, ih.2.1⟩
  | union _ hfirst _ ih ihothers =>
      rw [hfirst.depth_eq] at ihothers
      exact ⟨ih.1, .union (List.forall_mem_cons.2 ⟨ih.2.1, ihothers⟩)⟩
  | noPath _ => exact List.forall_mem_nil _
  | morePaths _ _ hpath _ ih ihlater =>
      rw [hpath.depth_eq] at ihlater
      exact List.forall_mem_cons.2 ⟨ih.2.1, ihlater⟩
  | @binary s s₁ s₂ _ _ _ hlimit hleft _ ih ihoperators =>
      -- the operand that is entered takes one of the levels that are left
      rw [hleft.depth_eq] at ihoperators
      have hlevels : 2 * (limit - (s.depth + 1)) + 2 = 2 * (limit - s.depth) := by omega
      obtain ⟨he, hlooser⟩ := ihoperators (.operand ih)
      rw [hlevels] at he
      exact ⟨by omega, he, hlooser⟩
  | noOperator hnext => exact fun hleft => ⟨hleft.within, hnext⟩
  | operator hop hright _ ih ihlater =>
      intro hleft
      obtain ⟨-, hright', hlooser⟩ := ih
      rw [hright.depth_eq] at ihlater
      exact ihlater (hleft.binary hop hright' hlooser)
  | not _ _ ih => exact ih.2.1.not
  | negate _ _ ih => exact ih.2.1.negate
  | unsigned _ ih => exact ih
  | number _ => exact (Expr.Within.number _).mono (Nat.le_add_left 1 _)
  | string _ => exact (Expr.Within.string _).mono (Nat.le_add_left 1 _)
  | parenthesized _ _ _ ih => exact ih.2.mono (Nat.le_succ _)
  | notCall _ _ ih => exact (ih _ (List.mem_singleton_self _)).not
  | namedCall _ _ ih => exact .call _ ih
  | pathOperand _ ih => exact ih
  | emptyCall _ _ _ => exact List.forall_mem_nil _
  | call _ _ _ _ ih => exact ih
  | lastArgument _ ih => exact List.forall_mem_singleton.2 ih.2
  | moreArguments hfirst _ _ ih ihlater =>
      rw [TokenStream.depth_advance, hfirst.depth_eq] at ihlater
      exact List.forall_mem_cons.2 ⟨ih.2, ihlater⟩
  | relative _ ih => exact .pathExpr ih
  | absolute _ _ ih => exact .pathExpr ih
  | lastStep hstart _ ih =>
      rw [hstart.depth_eq] at ih
      exact hstart.within ih
  | step hstart _ hpredicates _ _ ih ihlater =>
      rw [TokenStream.depth_advance, hpredicates.depth_eq] at ihlater
      rw [hstart.depth_eq] at ih ihlater
      exact List.forall_mem_append.2 ⟨hstart.within ih, ihlater⟩
  | noPredicate => exact List.forall_mem_nil _
  | @morePredicates s s₁ _ _ _ _ _ _ h _ _ ih ihlater =>
      rw [TokenStream.depth_advance, h.depth_eq] at ihlater
      -- a predicate has been entered, so two levels are there for a comparison with the position
      obtain ⟨hlevels, he⟩ := ih
      obtain ⟨k, hk⟩ := Nat.exists_eq_add_of_le' hlevels
      rw [hk] at he
      exact List.forall_mem_cons.2 ⟨hk ▸ he.positional, ihlater⟩

end

/-! ## Whole expressions -/

theorem height_le_of_ofTokens {limit : Nat} {ts : List Token} {e : Expr}
    (h : Expr.ofTokens limit ts = .ok e) : e.height ≤ 2 * limit + e.links := by
  obtain ⟨rest, hderives, -⟩ := Derives.of_ofTokens h
  have hbound : e.height ≤ 2 * (limit - 0) + e.links :=
    TokenStream.depth_ofTokens ts ▸ hderives.within.2
  exact hbound

/-- An expression that was read is at most twice as high as the limit admits operands in each other,
not counting the operators that continue their left operand. -/
theorem height_le_of_ofText {limit : Nat} {source : String} {e : Expr}
    (h : Expr.ofText limit source = .ok e) : e.height ≤ 2 * limit + e.links := by
  rw [Expr.ofText] at h
  cases htokens : tokens source.toList with
  | error fault =>
      rw [htokens] at h
      cases h
  | ok ts =>
      rw [htokens] at h
      exact height_le_of_ofTokens h

/-- An operator behind a step by position: of each level there are two expressions in each other. -/
theorem height_le_stepByPosition :
    ∃ e, Expr.ofText 2 "a[1] = 'x'" = .ok e ∧ e.height = 4 ∧ e.links = 0 ∧
      e.height ≤ 2 * 2 + e.links := by
  have hread : ((Expr.ofText 2 "a[1] = 'x'").toOption.any fun e =>
      e.height == 4 && e.links == 0) = true := by decide +kernel
  cases htext : Expr.ofText 2 "a[1] = 'x'" with
  | error fault =>
      rw [htext] at hread
      cases hread
  | ok e =>
      rw [htext] at hread
      obtain ⟨hheight, hlinks⟩ := Bool.and_eq_true_iff.1 hread
      exact ⟨e, rfl, eq_of_beq hheight, eq_of_beq hlinks, height_le_of_ofText htext⟩

/-! ## Chains of operators -/

/-- A path to the children of one name. -/
def letterPath : PathPhrase :=
  .mk none (.element (.named ⟨'a', [], rfl, rfl⟩)) (fun _ => rfl) [] []

/-- So many times the operator `or` between paths, each with those before it on its left. -/
def chain : Nat → Phrase
  | 0 => .path letterPath
  | n + 1 => .binary .or (chain n) (.path letterPath)

theorem height_chain (n : Nat) : (chain n).tree.height = n + 1 := by
  induction n with
  | zero => rfl
  | succ n ih =>
      rw [Expr.height] at ih
      rw [chain, Phrase.tree, Expr.height, Expr.heaviest_binary, ih]
      have hleaf : (Phrase.path letterPath).tree.heaviest 1 (fun _ _ => 0) = 1 := rfl
      omega

theorem operand_chain (n : Nat) (xs : List Lexeme) :
    operand BinaryOp.or.power (chain n).power xs = xs := by
  cases n <;> rfl

/-- Two levels are enough for a chain of operators, however long. -/
theorem readsSpine_chain (limit depth : Nat) (hlimit : depth + 2 ≤ limit) (n : Nat) :
    Opens (chain n).lexemes ∧
      ReadsSpine limit (depth + 1) BinaryOp.or.power (chain n).lexemes (chain n).tree := by
  have hlength : letterPath.lexemes.length = 1 := rfl
  induction n with
  | zero =>
      have hreads : letterPath.Reads limit (depth + 1) := letterPath.reads _ (by omega)
      have hpath := hreads.operand
      exact ⟨hpath.opens, hpath.readsPrefix.spine hpath.opens _⟩
  | succ n ih =>
      have hreads : letterPath.Reads limit (depth + 2) := letterPath.reads _ (by omega)
      have hpath := hreads.operand
      have hright : ReadsBinary limit (depth + 1) (BinaryOp.or.power + 1) letterPath.lexemes
          (.path letterPath.tree) :=
        (hpath.readsPrefix.spine hpath.opens _).readsBinary hpath.opens (by omega)
      have hlexemes : (chain (n + 1)).lexemes =
          (chain n).lexemes ++ .symbol BinaryOp.or.symbol :: letterPath.lexemes := by
        rw [chain, Phrase.lexemes, operand_chain]
        rfl
      rw [hlexemes]
      exact ⟨ih.1.append _, ih.2.binary ih.1 hright hpath.opens⟩

theorem ofText_chain (n : Nat) : Expr.ofText 2 (chain n).source = .ok (chain n).tree := by
  obtain ⟨hopens, hspine⟩ := readsSpine_chain 2 0 (Nat.le_refl 2) n
  obtain ⟨ts, htokens, hkinds⟩ := (spells_written (chain n).lexemes).kinds_of_tokens (chain n).leads
  have hbinary : ReadsBinary 2 0 loosestPower (chain n).lexemes (chain n).tree :=
    hspine.readsBinary hopens (by decide)
  rw [Expr.ofText, Phrase.source, htokens]
  exact (hbinary.readsUnion hopens).ofTokens hkinds

/-- Under a limit of two levels expressions of every height are read. -/
theorem exists_higher (height : Nat) :
    ∃ source e, Expr.ofText 2 source = .ok e ∧ height < e.height :=
  ⟨_, _, ofText_chain height, by rw [height_chain]; exact Nat.lt_succ_self _⟩

/-- The limit does not bound the height: under two levels a chain of four operators is read, which
is five expressions high. -/
theorem not_height_le :
    ¬ ∀ (limit : Nat) (source : String) (e : Expr), Expr.ofText limit source = .ok e →
      e.height ≤ 2 * limit := by
  intro h
  have hchain := h 2 "a or a or a or a or a" (chain 4).tree (ofText_chain 4)
  rw [height_chain] at hchain
  exact absurd hchain (by decide)

end MarkupPath.Query
