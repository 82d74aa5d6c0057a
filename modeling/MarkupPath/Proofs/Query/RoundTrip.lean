import MarkupPath.Proofs.Query.Lexing
import MarkupPath.Proofs.Query.Paths

/-!
# Expressions recovered from their text

Every phrase is compiled to its tree: `Phrase.compile_source`. The text is read as the lexemes of
the phrase, by `Phrase.leads`, and the lexemes as its tree, by `Phrase.reads`; both go along the
structure of the phrase. As many levels of operands as lexemes suffice.
-/

set_option autoImplicit false

namespace MarkupPath.Query

variable {limit depth : Nat}

/-! ## Paths -/

/-- The lexemes of the path are read as its tree, also with more steps behind them. -/
def PathPhrase.Reads (limit depth : Nat) (p : PathPhrase) : Prop :=
  ∀ (ys : List Lexeme) (steps : List (Step Expr)), ReadsLater limit depth ys steps →
    ReadsOperand limit depth (p.lexemes ++ ys) (.path ⟨p.tree.absolute, p.tree.steps ++ steps⟩)

theorem PathPhrase.Reads.operand {p : PathPhrase} (h : p.Reads limit depth) :
    ReadsOperand limit depth p.lexemes (.path p.tree) := by
  have hpath := h [] [] .none
  rwa [List.append_nil, List.append_nil] at hpath

/-- No step of a head tests an attribute. -/
theorem Head.isAttribute_of_mem {separator : Separator} {head : Head} {predicates : List Expr}
    {step : Step Expr} (h : step ∈ head.steps separator predicates) :
    step.test.isAttribute = false := by
  have hdescent : ∀ s ∈ separator.descent, s.test.isAttribute = false := by
    cases separator <;> simp [Separator.descent, NodeTest.isAttribute]
  cases head with
  | element p =>
      rw [Head.steps, List.mem_singleton] at h
      exact h ▸ rfl
  | _ =>
      rw [Head.steps, List.mem_append, List.mem_singleton] at h
      obtain h | h := h
      · exact hdescent step h
      · exact h ▸ rfl

theorem StepPhrase.isAttribute_of_mem : ∀ {later : List StepPhrase} {step : Step Expr},
    step ∈ StepPhrase.steps later → step.test.isAttribute = false
  | .mk _ _ _ :: rest, step, h => by
      rw [StepPhrase.steps, List.mem_append] at h
      obtain h | h := h
      · exact Head.isAttribute_of_mem h
      · exact StepPhrase.isAttribute_of_mem h

/-- A phrase for a path selects nodes; attributes have a phrase of their own. -/
theorem PathPhrase.endsInAttribute_tree (p : PathPhrase) : p.tree.endsInAttribute = false := by
  -- no step of a path phrase tests attributes, so the last one does not either
  have hsteps : ∀ step ∈ p.tree.steps, step.test.isAttribute = false := by
    intro step h
    cases p
    rw [PathPhrase.tree, List.mem_append] at h
    obtain h | h := h
    · exact Head.isAttribute_of_mem h
    · exact StepPhrase.isAttribute_of_mem h
  cases hlast : p.tree.steps.getLast? with
  | none => simp [Path.endsInAttribute, hlast]
  | some step =>
      simp [Path.endsInAttribute, hlast, hsteps step (List.mem_of_getLast? hlast)]

/-! ## Phrases -/

/-- With a level for each of its lexemes the phrase is read as its tree. -/
def Phrase.Reads (limit : Nat) (e : Phrase) : Prop :=
  ∀ depth, depth + e.lexemes.length ≤ limit → ReadsAs limit depth e.power e.lexemes e.tree

/-- With parentheses where it binds too weakly, the phrase stands among the operands of every
operator. -/
theorem Phrase.Reads.operand {e : Phrase} (h : e.Reads limit) {least : Nat}
    (hleast : loosestPower ≤ least)
    (hlimit : depth + (Query.operand least e.power e.lexemes).length ≤ limit) :
    ReadsSpine limit (depth + 1) least (Query.operand least e.power e.lexemes) e.tree := by
  rw [Query.operand] at hlimit ⊢
  split at hlimit
  · next hpower =>
      rw [if_pos hpower]
      rw [length_parenthesized] at hlimit
      have hinside := (h (depth + 1) (by omega)).parenthesized
      exact hinside.readsPrefix.spine hinside.opens least
  · next hpower =>
      rw [if_neg hpower]
      exact ((h depth hlimit).spine (by omega)).mono (by omega)

mutual

/-- The lexemes of a phrase are read as its tree. -/
theorem Phrase.reads : ∀ e : Phrase, e.Reads limit
  | .number n, _, hlimit =>
      .of_operand ⟨⟨_, _, rfl, rfl⟩, trivial, readsPrimary_number n⟩ hlimit
  | .string l, _, hlimit =>
      .of_operand ⟨⟨_, _, rfl, rfl⟩, trivial, readsPrimary_string l⟩ hlimit
  | .attribute p, _, hlimit =>
      .of_operand (readsOperand_attribute p) (Nat.le_of_succ_le hlimit)
  | .constant c, _, hlimit => by
      have harity : arity? c.word.text = some 0 := by cases c <;> decide
      exact .of_operand ⟨⟨_, _, rfl, rfl⟩, trivial,
        ReadsInside.readsPrimary (.inl ⟨rfl, rfl⟩) harity⟩
        (Nat.le_trans (Nat.add_le_add_left (Nat.le_add_left 1 2) _) hlimit)
  | .contains whole part, depth, hlimit => by
      simp only [Phrase.lexemes, List.length_cons, length_parenthesized, List.length_append]
        at hlimit
      have hwhole := whole.reads (depth + 1) (by omega)
      have hpart := part.reads (depth + 1) (by omega)
      have hargs :=
        (hpart.union.lastArgument hpart.opens).cons hwhole.union hwhole.opens hpart.opens
      exact .of_operand ⟨⟨_, _, rfl, rfl⟩, trivial,
        ReadsInside.readsPrimary (.inr ⟨hwhole.opens.append _, hargs⟩) rfl⟩ (by omega)
  | .not arg, depth, hlimit => by
      simp only [Phrase.lexemes, List.length_cons, length_parenthesized] at hlimit
      have harg := arg.reads (depth + 1) (by omega)
      exact .of_operand ⟨⟨_, _, rfl, rfl⟩, rfl, harg.union.not harg.opens⟩ (by omega)
  | .path p, depth, hlimit => by
      have hpath := (p.reads (depth + 1) (by rw [Phrase.lexemes] at hlimit; omega)).operand
      have hpos := hpath.opens.length_pos
      exact .of_operand hpath (by rw [Phrase.lexemes] at hlimit; omega)
  | .attributePath p separator name, depth, hlimit => by
      rw [Phrase.lexemes, List.length_append] at hlimit
      have hpath := p.reads (depth + 1) (by omega)
      have hpos := hpath.operand.opens.length_pos
      exact .of_operand (hpath _ _ (.some separator (.last separator name))) (by omega)
  | .rootAttribute separator name, _, hlimit =>
      .of_operand (ReadsSteps.last separator name).absolutePath
        (Nat.le_trans (Nat.add_le_add_left (Nat.le_add_left 1 2) _) hlimit)
  | .union first second others, depth, hlimit => by
      simp only [Phrase.lexemes, List.length_append, List.length_cons] at hlimit
      have hfirst := (first.reads (depth + 1) (by omega)).operand
      have hsecond := (second.reads (depth + 1) (by omega)).operand
      have hlater := ReadsPaths.some hsecond.opens (hsecond.readsBinary (by omega))
        second.endsInAttribute_tree (PathPhrase.reads_others others depth (by omega))
      -- no operator takes a union without parentheses, so there is nothing to show of its spine
      exact ⟨hfirst.opens.append _, hlater.readsUnion (hfirst.readsBinary (by omega)) hfirst.opens
        first.endsInAttribute_tree, fun h => absurd h (Nat.not_succ_le_zero 0)⟩
  | .negate arg, depth, hlimit => by
      have harg : arg.Reads limit := arg.reads
      have hlength := length_le_length_operand negationPower arg.power arg.lexemes
      rw [Phrase.lexemes, List.length_cons] at hlimit
      have hopens := (harg depth (by omega)).opens.operand negationPower arg.power
      have hpos := hopens.length_pos
      have hspine : ReadsSpine limit (depth + 2) negationPower
          (Query.operand negationPower arg.power arg.lexemes) arg.tree :=
        harg.operand (by decide) (by omega)
      exact .negate (hspine.readsBinary hopens (by omega)) hopens (by omega)
  | .binary op left right, depth, hlimit => by
      -- equal power on the left and more on the right: operators associate to the left
      have hpower := (power_bounds op).1
      have hleft : left.Reads limit := left.reads
      have hright : right.Reads limit := right.reads
      have hlength := length_le_length_operand op.power left.power left.lexemes
      have hlength' := length_le_length_operand (op.power + 1) right.power right.lexemes
      simp only [Phrase.lexemes, List.length_append, List.length_cons] at hlimit
      have hopens := (hleft depth (by omega)).opens.operand op.power left.power
      have hopens' := (hright depth (by omega)).opens.operand (op.power + 1) right.power
      have hpos := hopens.length_pos
      have hpos' := hopens'.length_pos
      have hspine : ReadsSpine limit (depth + 1) op.power
          (Query.operand op.power left.power left.lexemes) left.tree :=
        hleft.operand hpower (by omega)
      have hspine' : ReadsSpine limit (depth + 2) (op.power + 1)
          (Query.operand (op.power + 1) right.power right.lexemes) right.tree :=
        hright.operand (Nat.le_succ_of_le hpower) (by omega)
      exact .binary hspine hopens (hspine'.readsBinary hopens' (by omega)) hopens' (by omega)

/-- The lexemes of a path are read as its tree; the count of its lexemes is fuel and nesting
enough. -/
theorem PathPhrase.reads : ∀ (p : PathPhrase) (depth : Nat),
    depth + p.lexemes.length ≤ limit + 1 → p.Reads limit depth
  | .mk none head _ predicates later, depth, hlimit => by
      intro ys steps hys
      simp only [PathPhrase.lexemes, Option.map_none, Option.toList_none, List.nil_append,
        List.length_cons, List.length_append] at hlimit
      have hlater := StepPhrase.reads later depth (by omega) ys steps hys
      have hsteps := ReadsSteps.step .slash head
        (Phrase.reads_predicates predicates depth (by omega)) hlater
      simpa [PathPhrase.lexemes, PathPhrase.tree] using hsteps.relativePath
  | .mk (some separator) head _ predicates later, depth, hlimit => by
      intro ys steps hys
      simp only [PathPhrase.lexemes, Option.map_some, Option.toList_some, List.cons_append,
        List.nil_append, List.length_cons, List.length_append] at hlimit
      have hlater := StepPhrase.reads later depth (by omega) ys steps hys
      have hsteps := ReadsSteps.step separator head
        (Phrase.reads_predicates predicates depth (by omega)) hlater
      simpa [PathPhrase.lexemes, PathPhrase.tree] using hsteps.absolutePath

theorem PathPhrase.reads_others : ∀ (ps : List PathPhrase) (depth : Nat),
    depth + (PathPhrase.otherLexemes ps).length ≤ limit →
    ReadsPaths limit depth (PathPhrase.otherLexemes ps) (PathPhrase.trees ps)
  | [], _, _ => .none
  | p :: rest, depth, hlimit => by
      simp only [PathPhrase.otherLexemes, List.length_cons, List.length_append] at hlimit
      have hpath := (p.reads (depth + 1) (by omega)).operand
      exact .some hpath.opens (hpath.readsBinary (by omega)) p.endsInAttribute_tree
        (PathPhrase.reads_others rest depth (by omega))

theorem StepPhrase.reads : ∀ (later : List StepPhrase) (depth : Nat),
    depth + (StepPhrase.lexemes later).length ≤ limit →
    ∀ (ys : List Lexeme) (steps : List (Step Expr)), ReadsLater limit depth ys steps →
    ReadsLater limit depth (StepPhrase.lexemes later ++ ys) (StepPhrase.steps later ++ steps)
  | [], _, _, _, _, h => h
  | .mk separator head predicates :: rest, depth, hlimit, ys, steps, h => by
      simp only [StepPhrase.lexemes, List.length_cons, List.length_append] at hlimit
      have hrest := StepPhrase.reads rest depth (by omega) ys steps h
      have hsteps := ReadsSteps.step separator head
        (Phrase.reads_predicates predicates depth (by omega)) hrest
      simpa [StepPhrase.lexemes, StepPhrase.steps] using ReadsLater.some separator hsteps

theorem Phrase.reads_predicates : ∀ (es : List Phrase) (depth : Nat),
    depth + (Phrase.predicateLexemes es).length ≤ limit →
    ReadsPredicates limit depth (Phrase.predicateLexemes es) (Phrase.predicateTrees es)
  | [], _, _ => .none
  | e :: rest, depth, hlimit => by
      simp only [Phrase.predicateLexemes, List.length_cons, List.length_append] at hlimit
      have he := e.reads depth (by omega)
      exact .some he.opens he.union (Phrase.reads_predicates rest depth (by omega))

end

/-! ## Whole expressions -/

/-- Tokens of the kinds that the lexemes write, and then the end, are the expression that the
lexemes are read as. -/
theorem ReadsUnion.ofTokens {xs : List Lexeme} {e : Expr} (h : ReadsUnion limit 0 xs e)
    {ts : List Token} (hkinds : ts.map Token.kind = xs.map Lexeme.kind ++ [.stop]) :
    Expr.ofTokens limit ts = .ok e := by
  -- the last token is the end, and the stream keeps those before it
  obtain ⟨pending, ends, rfl, hpending, hends⟩ := List.map_eq_append_iff.1 hkinds
  obtain ⟨last, rfl, hlast⟩ := List.map_eq_singleton_iff.1 hends
  have hstream : TokenStream.ofTokens (pending ++ [last]) = ⟨pending, last.offset, 0⟩ := by
    simp [TokenStream.ofTokens, hlast, TokenKind.isStop]
  have hlength : pending.length = xs.length := by
    simpa using congrArg List.length hpending
  have hat : (TokenStream.mk pending last.offset 0).At (xs.map Lexeme.kind ++ []) 0 :=
    ⟨by simpa using hpending, rfl⟩
  obtain ⟨rest, hparse, hrest⟩ := h (9 * (pending.length + 1)) _ [] hat (by omega) (by omega) rfl
  have hstop : rest.peek.kind.isStop = true := by
    rw [hrest.peek]
    rfl
  rw [Expr.ofTokens, hstream, TokenStream.fuel, hparse]
  exact if_pos hstop

theorem Phrase.ofText_source (e : Phrase) (hlimit : e.lexemes.length ≤ limit) :
    Expr.ofText limit e.source = .ok e.tree := by
  obtain ⟨ts, htokens, hkinds⟩ := (spells_written e.lexemes).kinds_of_tokens e.leads
  rw [Expr.ofText, Phrase.source, htokens]
  exact (e.reads 0 (by omega)).union.ofTokens hkinds

/-- A phrase is recovered from its text: it is compiled to the tree that the phrase stands for, with
any limit on the nesting of operands that is no less than the number of its lexemes. -/
theorem Phrase.compile_source (e : Phrase) {limit : Nat} (hlimit : e.lexemes.length ≤ limit) :
    Expression.compile limit e.source = .ok ⟨e.source, e.tree⟩ := by
  rw [Expression.compile, e.ofText_source hlimit]
  rfl

/-- The words of operators as names of elements and as operators, and a star as a test and as the
sign of a product. -/
def operatorNames : Phrase :=
  let child (p : Pattern) (h : (Head.element p).isNot = false) : Phrase :=
    .path (.mk none (.element p) (fun _ => h) [] [])
  .binary (.arithmetic .mul)
    (.binary (.arithmetic .div)
      (child (.named ⟨'d', ['i', 'v'], by decide, by decide⟩) (by decide)) (child .star rfl))
    (.binary .or
      (child (.named ⟨'m', ['o', 'd'], by decide, by decide⟩) (by decide))
      (child (.named ⟨'a', ['n', 'd'], by decide, by decide⟩) (by decide)))

theorem compile_operatorNames :
    operatorNames.lexemes.length ≤ 9 ∧ operatorNames.source = "div div * * ( mod or and )" ∧
      Expression.compile 9 "div div * * ( mod or and )" = .ok ⟨"div div * * ( mod or and )",
        .binary (.arithmetic .mul)
          (.binary (.arithmetic .div) (.path ⟨false, [⟨.child, .element (.name "div"), []⟩]⟩)
            (.path ⟨false, [⟨.child, .element .wildcard, []⟩]⟩))
          (.binary .or (.path ⟨false, [⟨.child, .element (.name "mod"), []⟩]⟩)
            (.path ⟨false, [⟨.child, .element (.name "and"), []⟩]⟩))⟩ :=
  ⟨by decide, by rfl, operatorNames.compile_source (by decide)⟩

end MarkupPath.Query
