import MarkupPath.Proofs.Query.Digits
import MarkupPath.Proofs.Query.Legible
import MarkupPath.Proofs.Query.Recognition
import MarkupPath.Proofs.Query.RoundTrip

/-!
# Expressions read back from their own text

An expression that was read from a text and is legible is read back from the text that
`Expr.text` gives it, with every limit that admits the operands nested there: `ofText_text`.
-/

set_option autoImplicit false

namespace MarkupPath.Query

open MarkupPath.Number

/-! ## Legible trees of phrases -/

theorem Expr.legibleSteps_append {ss ts : List (Step Expr)} :
    Expr.LegibleSteps (ss ++ ts) ↔ Expr.LegibleSteps ss ∧ Expr.LegibleSteps ts := by
  induction ss with
  | nil => simp [Expr.LegibleSteps]
  | cons s ss ih =>
      cases s
      simp [Expr.LegibleSteps, ih, and_assoc]

theorem Expr.legiblePath_iff {p : Path Expr} : Expr.LegiblePath p ↔ Expr.LegibleSteps p.steps := by
  cases p
  exact Iff.rfl

theorem Head.legibleSteps {separator : Separator} {head : Head} {predicates : List Expr}
    (h : Expr.LegibleSteps (head.steps separator predicates)) :
    head.Explicit separator ∧ Expr.LegibleAll predicates := by
  cases head with
  | element p => exact ⟨trivial, h.2.1⟩
  | _ =>
      cases separator with
      | slash => exact ⟨rfl, h.2.1⟩
      | doubleSlash => exact absurd ⟨rfl, rfl⟩ h.1

theorem Separator.eq_slash {separator : Separator} {name : Pattern}
    (h : Expr.LegibleSteps (attributeSteps separator name)) : separator = .slash := by
  cases separator with
  | slash => rfl
  | doubleSlash => exact absurd ⟨rfl, rfl⟩ h.1

/-- A string is written in the marks that it does not hold. -/
theorem Literal.exists_quoted (l : Literal) :
    ∃ l' : Literal, (quoted l.text).toList = (Lexeme.string l').chars ∧ l'.text = l.text := by
  by_cases hmark : '\'' ∈ l.value
  · have hdouble : l.mark = '"' := l.isQuote.resolve_right fun h => l.absent (h ▸ hmark)
    refine ⟨⟨'"', l.value, .inl rfl, hdouble ▸ l.absent⟩, ?_, rfl⟩
    simp [quoted, Literal.text, hmark, Lexeme.chars]
  · refine ⟨⟨'\'', l.value, .inr rfl, hmark⟩, ?_, rfl⟩
    simp [quoted, Literal.text, hmark, Lexeme.chars]

/-- A number among predicates is shown as a comparison with the position. -/
theorem exists_shows_positional {e : Expr} (h : e.Legible → ∃ xs e', e.Shows xs e')
    (hlegible : (positional e).Legible) : ∃ xs e', (positional e).Shows xs e' := by
  cases e with
  | number value =>
      obtain ⟨hpower, hpower', -, hvalue⟩ := hlegible
      obtain ⟨xs, e', hshows⟩ := h hvalue
      obtain ⟨zs, hzs⟩ := (Expr.Shows.constant .position).binary hshows hpower hpower'
      exact ⟨zs, _, hzs⟩
  | _ => exact h hlegible

mutual

/-- The text of the tree of a phrase shows it, if it is legible. -/
theorem Phrase.exists_shows : ∀ e : Phrase, e.tree.Legible → ∃ xs e', e.tree.Shows xs e'
  | .number n, h => by
      obtain ⟨b, hb⟩ := Option.isSome_iff_exists.1 h
      obtain ⟨m, hchars, hvalue⟩ := exists_numeral_plain hb (negative_eq_false hb)
      exact ⟨_, _, .number hchars (by rw [hvalue]; exact beq_self_of_ofFloat? hb)⟩
  | .string l, _ => by
      obtain ⟨l', hchars, hvalue⟩ := l.exists_quoted
      exact ⟨_, _, .string hchars hvalue⟩
  | .attribute p, _ => ⟨_, _, .attributeTest p⟩
  | .constant c, _ => ⟨_, _, .constant c⟩
  | .contains whole part, h => by
      obtain ⟨xs, whole', hwhole⟩ := whole.exists_shows h.1
      obtain ⟨ys, part', hpart⟩ := part.exists_shows h.2.1
      exact ⟨_, _, .contains hwhole hpart⟩
  | .not arg, h => by
      obtain ⟨xs, arg', harg⟩ := arg.exists_shows h
      exact ⟨_, _, .not harg⟩
  | .path p, h => by
      obtain ⟨xs, steps', hpath⟩ := p.exists_shows h .nil
      rw [List.append_nil] at hpath
      exact ⟨xs, _, hpath⟩
  | .attributePath p separator name, h => by
      obtain ⟨hsteps, hname⟩ := Expr.legibleSteps_append.1 h
      cases Separator.eq_slash hname
      obtain ⟨xs, steps', hpath⟩ :=
        p.exists_shows (Expr.legiblePath_iff.2 hsteps) (.attributeStep name)
      exact ⟨xs, _, hpath⟩
  | .rootAttribute separator name, h => by
      cases Separator.eq_slash h
      exact ⟨_, _, (ShowsLater.attributeStep name).absolutePath⟩
  | .union first second others, h => by
      obtain ⟨hfirst, hsecond, hothers⟩ := h
      obtain ⟨xs, steps, hfirst⟩ := first.exists_shows hfirst .nil
      obtain ⟨ys, steps', hsecond⟩ := second.exists_shows hsecond .nil
      obtain ⟨zs, others', hothers⟩ := PathPhrase.exists_shows_others others hothers
      rw [List.append_nil] at hfirst hsecond
      have hlater := ShowsPaths.cons hsecond second.endsInAttribute_tree hothers
      exact ⟨_, _, hfirst.union first.endsInAttribute_tree hlater⟩
  | .negate arg, h => by
      obtain ⟨xs, arg', harg⟩ := arg.exists_shows h.2
      exact ⟨_, _, harg.negate h.1⟩
  | .binary op left right, h => by
      obtain ⟨hpower, hpower', hleft, hright⟩ := h
      obtain ⟨xs, left', hleft⟩ := left.exists_shows hleft
      obtain ⟨ys, right', hright⟩ := right.exists_shows hright
      obtain ⟨zs, hzs⟩ := hleft.binary hright hpower hpower'
      exact ⟨zs, _, hzs⟩

/-- The text of a legible path reads back as a path with the same steps, in front of any later steps
that do. -/
theorem PathPhrase.exists_shows : ∀ (p : PathPhrase) {tail tail' : List (Step Expr)}
    {zs : List Lexeme}, Expr.LegiblePath p.tree → ShowsLater tail zs tail' →
    ∃ xs steps', (Expr.path ⟨p.tree.absolute, p.tree.steps ++ tail⟩).Shows xs
      (.path ⟨p.tree.absolute, steps'⟩)
  | .mk start head admitted predicates later, tail, tail', zs, h, htail => by
      obtain ⟨hhead, hlater⟩ := Expr.legibleSteps_append.1 h
      obtain ⟨hexplicit, hpredicates⟩ := Head.legibleSteps hhead
      obtain ⟨xs, predicates', hpredicates⟩ := Phrase.exists_shows_predicates predicates hpredicates
      obtain ⟨ys, later', hlater⟩ := StepPhrase.exists_shows later hlater htail
      rw [PathPhrase.tree, List.append_assoc]
      cases start with
      | none => exact ⟨_, _, hpredicates.relativePath hlater hexplicit (admitted rfl)⟩
      | some separator => exact ⟨_, _, (hpredicates.step hlater hexplicit).absolutePath⟩

/-- The same for the steps behind the first one, each with its separator. -/
theorem StepPhrase.exists_shows : ∀ (later : List StepPhrase) {tail tail' : List (Step Expr)}
    {zs : List Lexeme}, Expr.LegibleSteps (StepPhrase.steps later) → ShowsLater tail zs tail' →
    ∃ ys steps', ShowsLater (StepPhrase.steps later ++ tail) ys steps'
  | [], _, tail', zs, _, htail => ⟨zs, tail', htail⟩
  | .mk separator head predicates :: rest, tail, tail', zs, h, htail => by
      obtain ⟨hhead, hrest⟩ := Expr.legibleSteps_append.1 h
      obtain ⟨hexplicit, hpredicates⟩ := Head.legibleSteps hhead
      obtain ⟨xs, predicates', hpredicates⟩ := Phrase.exists_shows_predicates predicates hpredicates
      obtain ⟨ys, rest', hrest⟩ := StepPhrase.exists_shows rest hrest htail
      rw [StepPhrase.steps, List.append_assoc]
      exact ⟨_, _, hpredicates.step hrest hexplicit⟩

theorem Phrase.exists_shows_predicates : ∀ es : List Phrase,
    Expr.LegibleAll (Phrase.predicateTrees es) →
    ∃ ys predicates', ShowsPredicates (Phrase.predicateTrees es) ys predicates'
  | [], _ => ⟨[], [], .nil⟩
  | e :: rest, h => by
      obtain ⟨xs, e', he⟩ := exists_shows_positional e.exists_shows h.1
      obtain ⟨ys, rest', hrest⟩ := Phrase.exists_shows_predicates rest h.2
      exact ⟨_, _, .cons he hrest⟩

theorem PathPhrase.exists_shows_others : ∀ ps : List PathPhrase,
    Expr.LegiblePaths (PathPhrase.trees ps) →
    ∃ ys paths', ShowsPaths (PathPhrase.trees ps) ys paths'
  | [], _ => ⟨[], [], .nil⟩
  | p :: rest, h => by
      obtain ⟨xs, steps', hpath⟩ := p.exists_shows h.1 .nil
      obtain ⟨ys, rest', hrest⟩ := PathPhrase.exists_shows_others rest h.2
      rw [List.append_nil] at hpath
      exact ⟨_, _, .cons hpath p.endsInAttribute_tree hrest⟩

end

/-! ## Expressions -/

theorem Expr.Shows.ofText {e e' : Expr} {xs : List Lexeme} (h : e.Shows xs e') {limit : Nat}
    (hlimit : e.levels ≤ limit) : Expr.ofText limit e.text = .ok e' := by
  obtain ⟨ts, htokens, hkinds⟩ := h.spelled.spells.kinds_of_tokens h.leads
  have hreads : ReadsAs limit 0 e.textPower xs e' := h.reads (by omega)
  rw [Expr.ofText, htokens]
  exact hreads.union.ofTokens hkinds

/-- A legible expression that was read from a text is read back from its own text, with every limit
that admits the operands nested in that. -/
theorem ofText_text {limit limit' : Nat} {source : String} {e : Expr}
    (h : Expr.ofText limit source = .ok e) (hlegible : e.Legible) (hlevels : e.levels ≤ limit') :
    ∃ e', Expr.ofText limit' e.text = .ok e' ∧ e'.same e = true := by
  obtain ⟨p, rfl⟩ := exists_phrase_of_ofText h
  obtain ⟨xs, e', hshows⟩ := p.exists_shows hlegible
  exact ⟨e', hshows.ofText hlevels, hshows.same⟩

/-- The digits of a position. -/
def secondPosition : Numeral := .whole ⟨'2', [], by decide, by decide⟩

/-- A comparison with a step by position and a string with an apostrophe, and a negation. -/
def chosenItem : Phrase :=
  .binary .or
    (.binary (.compare .equal)
      (.path (.mk (some .doubleSlash) (.element (.named ⟨'i', ['d'], by decide, by decide⟩))
        (nomatch ·) [.number secondPosition] []))
      (.string ⟨'"', ['i', '\'', 's'], .inl rfl, by decide⟩))
    (.not (.attribute (.named ⟨'i', ['d'], by decide, by decide⟩)))

theorem ofText_text_chosenItem :
    Expr.ofText 16 chosenItem.source = .ok chosenItem.tree ∧ chosenItem.tree.Legible ∧
      chosenItem.tree.levels ≤ 5 ∧
      ∃ e', Expr.ofText 5 "(//id[position() = 2] = \"i's\" or not(@id))" = .ok e' ∧
        e'.same chosenItem.tree = true := by
  have hsource : Expr.ofText 16 chosenItem.source = .ok chosenItem.tree :=
    chosenItem.ofText_source (by decide)
  have hfinite : (Binary.ofFloat? secondPosition.value).isSome = true := by decide
  have hlegible : chosenItem.tree.Legible := by
    simp [chosenItem, Phrase.tree, PathPhrase.tree, Phrase.predicateTrees, StepPhrase.steps,
      Head.steps, positional, Expr.Legible, Expr.LegiblePath, Expr.LegibleSteps, Expr.LegibleAll,
      Expr.textPower, BinaryOp.power, negationPower, Separator.axis, hfinite]
  have hlevels : chosenItem.tree.levels ≤ 5 := by decide
  have htext : chosenItem.tree.text = "(//id[position() = 2] = \"i's\" or not(@id))" := by rfl
  exact ⟨hsource, hlegible, hlevels, htext ▸ ofText_text hsource hlegible hlevels⟩

/-! ## Comparisons within each other -/

/-- A comparison on the right of another one. -/
def nestedComparison : Phrase :=
  .binary (.compare .equal) (.string ⟨'\'', ['a'], .inr rfl, by decide⟩)
    (.binary (.compare .equal) (.string ⟨'\'', ['b'], .inr rfl, by decide⟩)
      (.string ⟨'\'', ['c'], .inr rfl, by decide⟩))

/-- A comparison on the left of another one. -/
def chainedComparison : Phrase :=
  .binary (.compare .equal)
    (.binary (.compare .equal) (.string ⟨'\'', ['a'], .inr rfl, by decide⟩)
      (.string ⟨'\'', ['b'], .inr rfl, by decide⟩))
    (.string ⟨'\'', ['c'], .inr rfl, by decide⟩)

/-- A comparison on the right of another one is not read back: its text is that of a comparison on
the left. -/
theorem not_ofText_text :
    ¬ ∀ (source : String) (e : Expr), Expr.ofText defaultDepth source = .ok e →
      ∃ e', Expr.ofText defaultDepth e.text = .ok e' ∧ e'.same e = true := by
  intro h
  obtain ⟨e', he', hsame⟩ := h "'a' = ( 'b' = 'c' )" nestedComparison.tree
    (nestedComparison.ofText_source (by decide))
  have htext : nestedComparison.tree.text = chainedComparison.source := by rfl
  rw [htext, chainedComparison.ofText_source (by decide)] at he'
  cases he'
  simp [chainedComparison, nestedComparison, Phrase.tree, Expr.same] at hsame

end MarkupPath.Query
