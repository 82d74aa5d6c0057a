import MarkupPath.Proofs.Query.Climbing

/-!
# Paths read back

What the grammar reads as predicates, steps and paths, as relations between lexemes and their trees,
and for each relation the lemma that the grammar does so. A path differs from the other operands in
that nothing closes it: it ends where neither a separator nor a bracket follows.
-/

set_option autoImplicit false

namespace MarkupPath.Query

variable {limit depth : Nat}

/-! ## Predicates -/

/-- The lexemes are operands in brackets, and these are the predicates that they stand for. -/
inductive ReadsPredicates (limit depth : Nat) : List Lexeme → List Expr → Prop where
  | none : ReadsPredicates limit depth [] []
  | some {xs ys : List Lexeme} {e : Expr} {predicates : List Expr} (hxs : Opens xs)
      (h : ReadsUnion limit depth xs e) (later : ReadsPredicates limit depth ys predicates) :
      ReadsPredicates limit depth (.symbol .openBracket :: (xs ++ .symbol .closeBracket :: ys))
        (positional e :: predicates)

/-- Without a bracket there are no predicates. -/
theorem parsePredicates_none {fuel : Nat} {test : NodeTest} {s : TokenStream}
    {ks : List TokenKind} {d : Nat} (hs : s.At ks d)
    (hks : (upcoming ks).isSymbol .openBracket = false) :
    parsePredicates limit (fuel + 1) test s = pure ([], s) := by
  simp only [parsePredicates, hs.sees, hks, Bool.false_eq_true, if_false]

/-- The loop over predicates reads them behind the test of an element and stops where no bracket
opens. -/
theorem ReadsPredicates.parses {xs : List Lexeme} {predicates : List Expr}
    (h : ReadsPredicates limit depth xs predicates) {test : NodeTest}
    (htest : test.isAttribute = false) :
    Reads 0 depth (fun fuel => parsePredicates limit fuel test)
      (fun rest => (upcoming rest).isSymbol .openBracket = false) xs predicates := by
  induction h with
  | none =>
      apply Reads.of_succ
      intro fuel s rest hs _ hrest
      simp only [parsePredicates_none hs hrest]
      exact Parses.pure hs
  | @some xs ys e predicates hxs h _ ih =>
      apply Reads.of_succ
      intro fuel s rest hs hcalls hrest
      have hpos := hxs.length_pos
      have hsome : s.sees .openBracket = true := hs.sees .openBracket
      simp only [List.map_cons, List.map_append, List.cons_append, List.append_assoc,
        List.length_cons, List.length_append, Lexeme.kind] at hs hcalls
      simp only [parsePredicates, hsome, htest, Bool.false_eq_true, if_true, if_false]
      apply Parses.bind (h fuel s.advance _ hs.advance (by omega) (by omega)
        (closes_symbol rfl))
      intro s₁ hs₁
      apply hs₁.expect.bind
      intro s₂ hs₂
      apply Parses.bind (ih fuel s₂ rest hs₂ (by omega) (by omega) hrest)
      intro s₃ hs₃
      exact Parses.pure hs₃

/-! ## Steps -/

mutual

/-- The lexemes are steps behind a separator, and these are the steps that they stand for. -/
inductive ReadsSteps (limit depth : Nat) : Separator → List Lexeme → List (Step Expr) → Prop where
  | last (separator : Separator) (p : Pattern) :
      ReadsSteps limit depth separator [.symbol .atSign, p.lexeme] (attributeSteps separator p)
  | step (separator : Separator) (head : Head) {xs ys : List Lexeme} {predicates : List Expr}
      {steps : List (Step Expr)} (h : ReadsPredicates limit depth xs predicates)
      (later : ReadsLater limit depth ys steps) :
      ReadsSteps limit depth separator (head.lexeme :: (xs ++ ys))
        (head.steps separator predicates ++ steps)

/-- The lexemes are what may stand behind a step: nothing, or a separator and further steps. -/
inductive ReadsLater (limit depth : Nat) : List Lexeme → List (Step Expr) → Prop where
  | none : ReadsLater limit depth [] []
  | some (separator : Separator) {xs : List Lexeme} {steps : List (Step Expr)}
      (h : ReadsSteps limit depth separator xs steps) :
      ReadsLater limit depth (.symbol separator.symbol :: xs) steps

end

theorem separatorAxis?_symbol (separator : Separator) :
    separatorAxis? (.symbol separator.symbol) = some separator.axis := by
  cases separator <;> rfl

/-- The start of an attribute step behind either separator: behind a double slash a subtree step is
put in front. -/
theorem stepStart_attribute (separator : Separator) (p : Pattern) {s : TokenStream}
    {ks : List TokenKind} {d : Nat} (hs : s.At (.symbol .atSign :: p.lexeme.kind :: ks) d) :
    ∃ before axis, stepStart separator.axis s =
        pure (before, axis, .attribute p.test, s.advance.advance) ∧
      before ++ [⟨axis, .attribute p.test, []⟩] = attributeSteps separator p := by
  refine ⟨(splitAxis separator.axis).1, (splitAxis separator.axis).2, ?_, ?_⟩
  · rw [stepStart, hs.peek_cons]
    simp only [hs.advance.peek_cons]
    cases p <;> rfl
  · cases separator <;> rfl

theorem stepStart_head (separator : Separator) (head : Head) {s : TokenStream}
    {ks : List TokenKind} {d : Nat} (hs : s.At (head.lexeme.kind :: ks) d) :
    ∃ before axis test, stepStart separator.axis s = pure (before, axis, test, s.advance) ∧
      test.isAttribute = false ∧
      ∀ predicates, before ++ [⟨axis, test, predicates⟩] = head.steps separator predicates := by
  rw [stepStart, hs.peek_cons]
  cases head with
  | dot => exact ⟨_, _, _, rfl, rfl, fun _ => by cases separator <;> rfl⟩
  | doubleDot => exact ⟨_, _, _, rfl, rfl, fun _ => by cases separator <;> rfl⟩
  | element p => cases p <;> exact ⟨_, _, _, rfl, rfl, fun _ => rfl⟩

theorem ReadsLater.upcoming {xs : List Lexeme} {steps : List (Step Expr)}
    (h : ReadsLater limit depth xs steps) {rest : List TokenKind} (hrest : Follows rest) :
    (upcoming (xs.map Lexeme.kind ++ rest)).isSymbol .openBracket = false ∧
      (Query.upcoming (xs.map Lexeme.kind ++ rest)).isSymbol .openParen = false := by
  cases h with
  | none => exact hrest.ends.2
  | some separator h => cases separator <;> exact ⟨rfl, rfl⟩

/-- A step by an attribute is the last one. -/
theorem reads_attributeSteps (separator : Separator) (p : Pattern) :
    Reads 7 depth (fun fuel => parseSteps limit fuel separator.axis) Follows
      [.symbol .atSign, p.lexeme] (attributeSteps separator p) := by
  apply Reads.of_succ
  intro fuel s rest hs hcalls hrest
  obtain ⟨fuel, rfl⟩ : ∃ fuel₁, fuel = fuel₁ + 1 := by
    rw [List.length_cons] at hcalls
    exact Nat.exists_eq_add_one.2 (by omega)
  obtain ⟨before, axis, hstart, hsteps⟩ := stepStart_attribute separator p hs
  have hs' : s.advance.advance.At rest depth := hs.advance.advance
  simp only [parseSteps, hstart, pure_bind, parsePredicates_none hs' hrest.ends.2.1, hs'.peek,
    hrest.ends.1, hsteps]
  exact Parses.pure hs'

section Step

variable (separator : Separator) (head : Head) {xs : List Lexeme} {predicates : List Expr}
  (h : ReadsPredicates limit depth xs predicates)

include h

/-- A step and its predicates end where no separator follows. -/
theorem reads_lastStep :
    Reads 7 depth (fun fuel => parseSteps limit fuel separator.axis) Follows (head.lexeme :: xs)
      (head.steps separator predicates) := by
  apply Reads.of_succ
  intro fuel s rest hs hcalls hrest
  simp only [List.map_cons, List.cons_append, List.length_cons] at hs hcalls
  obtain ⟨before, axis, test, hstart, htest, hsteps⟩ := stepStart_head separator head hs
  simp only [parseSteps, hstart, pure_bind]
  apply Parses.bind
    (h.parses htest fuel s.advance rest hs.advance (by omega) (by omega) hrest.ends.2.1)
  intro s₁ hs₁
  simp only [hs₁.peek, hrest.ends.1, hsteps]
  exact Parses.pure hs₁

/-- Behind a step and its predicates a separator leads to the steps that follow. -/
theorem reads_stepThen (next : Separator) {ys : List Lexeme} {steps : List (Step Expr)}
    (later : Reads 7 depth (fun fuel => parseSteps limit fuel next.axis) Follows ys steps) :
    Reads 7 depth (fun fuel => parseSteps limit fuel separator.axis) Follows
      (head.lexeme :: (xs ++ .symbol next.symbol :: ys))
      (head.steps separator predicates ++ steps) := by
  apply Reads.of_succ
  intro fuel s rest hs hcalls hrest
  simp only [List.map_cons, List.map_append, List.cons_append, List.append_assoc,
    List.length_cons, List.length_append, Lexeme.kind] at hs hcalls
  obtain ⟨before, axis, test, hstart, htest, hsteps⟩ := stepStart_head separator head hs
  simp only [parseSteps, hstart, pure_bind]
  have hbracket : ∀ ks,
      (upcoming (.symbol next.symbol :: ks)).isSymbol .openBracket = false := by
    intro ks
    cases next <;> rfl
  apply Parses.bind
    (h.parses htest fuel s.advance _ hs.advance (by omega) (by omega) (hbracket _))
  intro s₁ hs₁
  simp only [hs₁.peek_cons, separatorAxis?_symbol, htest, Bool.false_eq_true, if_false]
  apply Parses.bind
    (later fuel s₁.advance rest hs₁.advance (by omega) (by omega) hrest)
  intro s₂ hs₂
  rw [← hsteps]
  exact Parses.pure hs₂

end Step

theorem ReadsSteps.parses : ∀ {separator : Separator} {xs : List Lexeme}
    {steps : List (Step Expr)}, ReadsSteps limit depth separator xs steps →
    Reads 7 depth (fun fuel => parseSteps limit fuel separator.axis) Follows xs steps
  | _, _, _, .last separator p => reads_attributeSteps separator p
  -- a step is the last one, or a separator and the rest of the steps follow
  | _, _, _, .step separator head h .none => by
      simpa only [List.append_nil] using reads_lastStep separator head h
  | _, _, _, .step separator head h (.some next later) =>
      reads_stepThen separator head h next later.parses

/-! ## Paths -/

/-- The lexemes start with one that a step may start with, and which is no name of a function. -/
def StartsStep (xs : List Lexeme) : Prop :=
  ∃ x later, xs = x :: later ∧ startsStep x.kind = true ∧
    ∀ rest, Follows rest → (upcoming (later.map Lexeme.kind ++ rest)).isSymbol .openParen = false

/-- Lexemes of steps begin as a step does, so they are told from an absolute path with nothing
behind its slash. -/
theorem ReadsSteps.starts {separator : Separator} {xs : List Lexeme} {steps : List (Step Expr)}
    (h : ReadsSteps limit depth separator xs steps) : StartsStep xs := by
  cases h with
  | last _ p => exact ⟨_, _, rfl, rfl, fun _ _ => by cases p <;> rfl⟩
  | step _ head h later =>
      refine ⟨_, _, rfl, ?_, ?_⟩
      · cases head with
        | element p => cases p <;> rfl
        | _ => rfl
      · -- behind the name stands a bracket, a separator or what follows the path
        intro rest hrest
        cases h with
        | none => exact (later.upcoming hrest).2
        | some => rfl

theorem isSymbol_of_startsStep {k : TokenKind} (h : startsStep k = true) {x : Symbol}
    (hx : startsStep (.symbol x) = false) : k.isSymbol x = false := by
  cases k with
  | symbol y =>
      by_cases hy : y = x
      · rw [hy, hx] at h
        cases h
      · simpa [TokenKind.isSymbol] using hy
  | _ => rfl

theorem StartsStep.opens {xs : List Lexeme} (h : StartsStep xs) : Opens xs := by
  obtain ⟨x, later, rfl, hx, -⟩ := h
  exact ⟨x, later, rfl, isSymbol_of_startsStep hx rfl⟩

theorem StartsStep.unsigned {xs : List Lexeme} (h : StartsStep xs) : Unsigned xs := by
  obtain ⟨x, later, rfl, hx, -⟩ := h
  cases x with
  | symbol x =>
      cases x with
      | minus => cases hx
      | not => cases hx
      | _ => exact trivial
  | _ => exact trivial

/-- An operand that is no literal and no call is a path. -/
theorem parsePrimary_path {fuel : Nat} {s : TokenStream} {k : TokenKind} {ks : List TokenKind}
    {d : Nat} (hs : s.At (k :: ks) d) (hk : (startsStep k || (separatorAxis? k).isSome) = true)
    (hks : (upcoming ks).isSymbol .openParen = false) :
    parsePrimary limit (fuel + 1) s = parsePath limit fuel s := by
  rw [parsePrimary, hs.peek_cons, hs.peekSecond, hks]
  cases k with
  | symbol x =>
      cases x with
      | openParen => cases hk
      | not => cases hk
      | _ => simp only [hk, if_true]
  | name value => rfl
  | _ => cases hk

/-- A relative path goes on from its first step as if it stood behind a slash. -/
theorem ReadsSteps.relative {xs : List Lexeme} {steps : List (Step Expr)}
    (h : ReadsSteps limit depth .slash xs steps) :
    ReadsPrimary limit depth xs (pathExpr false steps) := by
  have hpos := h.starts.opens.length_pos
  obtain ⟨x, later, rfl, hx, hlater⟩ := h.starts
  -- what a step starts with is no separator, so the path starts at the context
  apply Reads.of_succ
  intro fuel s rest hs hcalls hrest
  rw [parsePrimary_path hs (by simp [hx]) (hlater rest hrest)]
  obtain ⟨fuel, rfl⟩ : ∃ fuel₁, fuel = fuel₁ + 1 := ⟨fuel - 1, by omega⟩
  have hstart : pathStart s = pure (false, .child, s) := by
    have hslash : s.sees .slash = false := (hs.sees .slash).trans (isSymbol_of_startsStep hx rfl)
    have hdouble : s.sees .doubleSlash = false :=
      (hs.sees .doubleSlash).trans (isSymbol_of_startsStep hx rfl)
    simp only [pathStart, hslash, hdouble]
    rfl
  simp only [parsePath, hstart, pure_bind]
  apply Parses.bind (h.parses fuel s rest hs (by omega) (by omega) hrest)
  intro s₁ hs₁
  exact Parses.pure hs₁

/-- Steps behind a separator are an absolute path. -/
theorem ReadsSteps.absolute {separator : Separator} {xs : List Lexeme} {steps : List (Step Expr)}
    (h : ReadsSteps limit depth separator xs steps) :
    ReadsPrimary limit depth (.symbol separator.symbol :: xs) (pathExpr true steps) := by
  have hpos := h.starts.opens.length_pos
  obtain ⟨x, later, rfl, hx, -⟩ := h.starts
  apply Reads.of_succ
  intro fuel s rest hs hcalls hrest
  have hs' : s.advance.At _ depth := TokenStream.At.advance hs
  rw [parsePrimary_path hs (by cases separator <;> rfl) (isSymbol_of_startsStep hx rfl)]
  simp only [List.length_cons] at hcalls hpos
  obtain ⟨fuel, rfl⟩ : ∃ fuel₁, fuel = fuel₁ + 1 := ⟨fuel - 1, by omega⟩
  -- behind a single slash the grammar looks for a step before it goes on
  have hstart : pathStart s = pure (true, separator.axis, s.advance) := by
    cases separator with
    | slash =>
        have hslash : s.sees .slash = true := hs.sees .slash
        have hstep : startsStep s.advance.peek.kind = true := by
          rw [hs'.peek]
          exact hx
        simp only [pathStart, hslash, hstep]
        rfl
    | doubleSlash =>
        have hslash : s.sees .slash = false := hs.sees .slash
        have hdouble : s.sees .doubleSlash = true := hs.sees .doubleSlash
        simp only [pathStart, hslash, hdouble]
        rfl
  simp only [parsePath, hstart, pure_bind]
  apply Parses.bind (h.parses fuel s.advance rest hs' (by omega)
    (by simp only [List.length_cons]; omega) hrest)
  intro s₁ hs₁
  exact Parses.pure hs₁

/-- Steps that start with no attribute are a path. -/
theorem pathExpr_head (absolute : Bool) (separator : Separator) (head : Head)
    (predicates : List Expr) (steps : List (Step Expr)) :
    pathExpr absolute (head.steps separator predicates ++ steps) =
      .path ⟨absolute, head.steps separator predicates ++ steps⟩ := by
  cases absolute with
  | true => rfl
  | false => cases head <;> cases separator <;> rfl

theorem ReadsSteps.relativePath {head : Head} {predicates : List Expr} {steps : List (Step Expr)}
    {xs : List Lexeme}
    (h : ReadsSteps limit depth .slash xs (head.steps .slash predicates ++ steps)) :
    ReadsOperand limit depth xs (.path ⟨false, head.steps .slash predicates ++ steps⟩) where
  opens := h.starts.opens
  unsigned := h.starts.unsigned
  reads := pathExpr_head .. ▸ h.relative

theorem ReadsSteps.absolutePath {separator : Separator} {xs : List Lexeme}
    {steps : List (Step Expr)} (h : ReadsSteps limit depth separator xs steps) :
    ReadsOperand limit depth (.symbol separator.symbol :: xs) (.path ⟨true, steps⟩) where
  opens := ⟨_, _, rfl, by cases separator <;> rfl⟩
  unsigned := by cases separator <;> exact trivial
  reads := h.absolute

/-- A lone attribute is read like a literal. -/
theorem readsOperand_attribute (p : Pattern) :
    ReadsOperand limit depth [.symbol .atSign, p.lexeme] (.attribute p.test) where
  opens := ⟨_, _, rfl, rfl⟩
  unsigned := trivial
  reads := (ReadsSteps.last .slash p).relative

/-! ## Unions -/

/-- The lexemes are paths to elements, each behind a bar. -/
inductive ReadsPaths (limit depth : Nat) : List Lexeme → List (Path Expr) → Prop where
  | none : ReadsPaths limit depth [] []
  | some {xs ys : List Lexeme} {p : Path Expr} {paths : List (Path Expr)} (hxs : Opens xs)
      (h : ReadsBinary limit depth loosestPower xs (.path p)) (hp : p.endsInAttribute = false)
      (later : ReadsPaths limit depth ys paths) :
      ReadsPaths limit depth (.symbol .pipe :: (xs ++ ys)) (p :: paths)

theorem unionOperand_path {p : Path Expr} (hp : p.endsInAttribute = false) (offset : Nat) :
    unionOperand (.path p) offset = pure p := by
  rw [unionOperand, hp]
  rfl

/-- Behind a path of a union stands a bar or what stands behind the union. -/
theorem ReadsPaths.follows {xs : List Lexeme} {paths : List (Path Expr)}
    (h : ReadsPaths limit depth xs paths) {rest : List TokenKind} (hrest : Closes rest) :
    Follows (xs.map Lexeme.kind ++ rest) ∧ Looser loosestPower (xs.map Lexeme.kind ++ rest) := by
  cases h with
  | none => exact ⟨hrest.follows, hrest.looser _⟩
  | some => exact ⟨follows_pipe, looser_pipe⟩

theorem ReadsPaths.parses {xs : List Lexeme} {paths : List (Path Expr)}
    (h : ReadsPaths limit depth xs paths) : Reads 0 depth (parsePaths limit) Closes xs paths := by
  induction h with
  | none =>
      apply Reads.of_succ
      intro fuel s rest hs _ hrest
      have hnone : s.sees .pipe = false := (hs.sees .pipe).trans hrest.isSymbol_pipe
      simp only [parsePaths, hnone, Bool.false_eq_true, if_false]
      exact Parses.pure hs
  | @some xs ys p paths hxs h hp later ih =>
      apply Reads.of_succ
      intro fuel s rest hs hcalls hrest
      have hpos := hxs.length_pos
      have hpipe : s.sees .pipe = true := hs.sees .pipe
      simp only [List.map_cons, List.map_append, List.cons_append, List.append_assoc,
        List.length_cons, List.length_append, Lexeme.kind] at hs hcalls
      simp only [parsePaths, hpipe, if_true]
      apply Parses.bind (h fuel s.advance _ hs.advance (by omega) (by omega)
        (later.follows hrest))
      intro s₁ hs₁
      simp only [unionOperand_path hp, pure_bind]
      apply Parses.bind (ih fuel s₁ rest hs₁ (by omega) (by omega) hrest)
      intro s₂ hs₂
      exact Parses.pure hs₂

/-- A path and further ones behind bars make a union. -/
theorem ReadsPaths.readsUnion {xs ys : List Lexeme} {p q : Path Expr} {paths : List (Path Expr)}
    (later : ReadsPaths limit depth ys (q :: paths))
    (h : ReadsBinary limit depth loosestPower xs (.path p))
    (hxs : Opens xs) (hp : p.endsInAttribute = false) :
    ReadsUnion limit depth (xs ++ ys) (.union (p :: q :: paths)) := by
  apply Reads.of_succ
  intro fuel s rest hs hcalls hrest
  have hpos := hxs.length_pos
  simp only [List.map_append, List.append_assoc, List.length_append] at hs hcalls
  rw [parseUnion]
  apply Parses.bind (h fuel s _ hs (by omega) (by omega) (later.follows hrest))
  intro s₁ hs₁
  -- there is a second path, so a bar is seen behind the first one
  have hpipe : s₁.sees .pipe = true := by
    cases later
    exact hs₁.sees .pipe
  simp only [hpipe, if_true, unionOperand_path hp, pure_bind]
  apply Parses.bind (later.parses fuel s₁ rest hs₁ (by omega) (by omega) hrest)
  intro s₂ hs₂
  exact Parses.pure hs₂

end MarkupPath.Query
