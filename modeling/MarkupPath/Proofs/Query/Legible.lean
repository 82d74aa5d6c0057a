import MarkupPath.Proofs.Query.Lexing
import MarkupPath.Proofs.Query.Paths

/-!
# Legible expressions

The text of an expression puts parentheses around conjunctions, disjunctions and arithmetic only.
`Expr.Legible` says that these suffice: no comparison or union stands where it would have to bind
more tightly than its text does, no step is one that `//` only implies, and numbers are finite.
`Expr.levels` is the number of operands that the text nests.

`Expr.Shows` says that the text of an expression is read back as the same one, and the lemmas put
such facts together as `Expr.text` does.
-/

set_option autoImplicit false

namespace MarkupPath.Query

open MarkupPath.Number

/-! ## Expressions that their text shows -/

/-- How tightly the text of an expression binds: what stands in parentheses like a literal. -/
def Expr.textPower : Expr → Nat
  | .union _ => 0
  | .binary (.compare op) _ _ => (BinaryOp.compare op).power
  | _ => negationPower

mutual

/-- The text shows the structure of the expression: every operand binds in it as tightly as its
place demands, no step is one that a double slash implies, and every number is finite. -/
def Expr.Legible : Expr → Prop
  | .path p => Expr.LegiblePath p
  | .union paths => Expr.LegiblePaths paths
  | .attribute _ => True
  | .binary op left right =>
      op.power ≤ left.textPower ∧ op.power < right.textPower ∧ Expr.Legible left ∧
        Expr.Legible right
  | .not arg => Expr.Legible arg
  | .negate arg => negationPower ≤ arg.textPower ∧ Expr.Legible arg
  | .call _ args => Expr.LegibleAll args
  | .number value => (Binary.ofFloat? value).isSome = true
  | .string _ => True

/-- All predicates of the path are legible, and no step is an implied one. -/
def Expr.LegiblePath : Path Expr → Prop
  | ⟨_, steps⟩ => Expr.LegibleSteps steps

/-- All paths are legible. -/
def Expr.LegiblePaths : List (Path Expr) → Prop
  | [] => True
  | p :: rest => Expr.LegiblePath p ∧ Expr.LegiblePaths rest

/-- All predicates of the steps are legible, and no step is an implied one. -/
def Expr.LegibleSteps : List (Step Expr) → Prop
  | [] => True
  | ⟨axis, test, predicates⟩ :: rest =>
      ¬ (axis = .descendantOrSelf ∧ test = .any) ∧ Expr.LegibleAll predicates ∧
        Expr.LegibleSteps rest

/-- All expressions are legible. -/
def Expr.LegibleAll : List Expr → Prop
  | [] => True
  | e :: rest => Expr.Legible e ∧ Expr.LegibleAll rest

end

mutual

/-- How many operands the text of the expression nests. -/
def Expr.levels : Expr → Nat
  | .path p => Expr.pathLevels p
  | .union paths => Expr.pathsLevels paths
  | .attribute _ => 1
  | .binary op left right =>
      let bare := max (Expr.levels left) (Expr.levels right + 1)
      match op with
      | .compare _ => bare
      | _ => bare + 1
  | .not arg => Expr.levels arg + 1
  | .negate arg => Expr.levels arg + 1
  | .call _ args => Expr.allLevels args + 1
  | .number _ => 1
  | .string _ => 1

/-- How many operands the text of the path nests. -/
def Expr.pathLevels : Path Expr → Nat
  | ⟨_, steps⟩ => Expr.stepsLevels steps + 1

/-- How many operands the text of one of the paths nests at most. -/
def Expr.pathsLevels : List (Path Expr) → Nat
  | [] => 0
  | p :: rest => max (Expr.pathLevels p) (Expr.pathsLevels rest)

/-- How many operands the text of a predicate of the steps nests at most. -/
def Expr.stepsLevels : List (Step Expr) → Nat
  | [] => 0
  | ⟨_, _, predicates⟩ :: rest => max (Expr.allLevels predicates) (Expr.stepsLevels rest)

/-- How many operands the text of one of the expressions nests at most. -/
def Expr.allLevels : List Expr → Nat
  | [] => 0
  | e :: rest => max (Expr.levels e) (Expr.allLevels rest)

end

/-- What an operator takes nests at least one operand. -/
theorem Expr.levels_pos {e : Expr} (h : loosestPower ≤ e.textPower) : 0 < e.levels := by
  cases e with
  | union paths => exact absurd h (Nat.not_succ_le_zero 0)
  | path p =>
      cases p
      simp [Expr.levels, Expr.pathLevels]
  | binary op left right =>
      have hright : 0 < max left.levels (right.levels + 1) := by omega
      cases op <;> simp [Expr.levels, hright]
  | _ => simp [Expr.levels]

/-- An expression that is the same as one which is no number is no number. -/
theorem positional_of_same {e e' : Expr} (h : e'.same (positional e) = true) :
    positional e' = e' := by
  cases e' with
  | number value =>
      cases e <;> simp [positional, Expr.same] at h
  | _ => rfl

/-! ## Texts of lexemes -/

/-- Characters that no lexeme but a slash goes on with. -/
def delimiters : List Char := [' ', '(', ')', '[', ']', ',', '/']

/-- The text is empty or starts with a delimiter. -/
def Delimits (text : List Char) : Prop := ∀ c ∈ text.head?, c ∈ delimiters

/-- The text writes the lexemes, also in front of a text that starts with a delimiter. -/
def Spelled (text : List Char) (xs : List Lexeme) : Prop :=
  ∀ (tail : List Char) (ys : List Lexeme), Delimits tail → Spells tail ys →
    Spells (text ++ tail) (xs ++ ys)

/-- The lexeme does not go on, whatever character stands behind it. -/
def Lexeme.Closed (x : Lexeme) : Prop := ∀ c, x.stopsAt c = true

/-- A lexeme ends in front of a delimiter; only a slash could go on with one, as `//`. -/
theorem Lexeme.endsBefore_delimiter {x : Lexeme} (hx : x ≠ .symbol .slash) {tail : List Char}
    (htail : Delimits tail) : x.EndsBefore tail := by
  intro c hc
  have hmem := htail c hc
  simp only [delimiters, List.mem_cons, List.not_mem_nil, or_false] at hmem
  cases x with
  | symbol s =>
      rcases hmem with rfl | rfl | rfl | rfl | rfl | rfl | rfl <;> cases s <;>
        first | exact absurd rfl hx | decide
  | number n => rcases hmem with rfl | rfl | rfl | rfl | rfl | rfl | rfl <;> rfl
  | string l => rfl
  | name w =>
      have hparts : delimiters.all (fun c => !isNamePart c) = true := by decide
      exact List.all_eq_true.1 hparts c (htail c hc)

namespace Spelled

variable {text text' : List Char} {xs ys : List Lexeme} {x : Lexeme}

theorem nil : Spelled [] [] := fun _ _ _ h => h

theorem blank (h : Spelled text xs) : Spelled (' ' :: text) xs :=
  fun tail ys htail hys => (h tail ys htail hys).blank

theorem lexeme (hx : x ≠ .symbol .slash) : Spelled x.chars [x] :=
  fun _ _ htail hys => .lexeme (Lexeme.endsBefore_delimiter hx htail) hys

/-- Behind a lexeme that ends by itself any text may stand. -/
theorem cons (hx : x.Closed) (h : Spelled text xs) : Spelled (x.chars ++ text) (x :: xs) := by
  intro tail ys htail hys
  rw [List.append_assoc, List.cons_append]
  exact .lexeme (fun c _ => hx c) (h tail ys htail hys)

theorem append (h : Spelled text xs) (h' : Spelled text' ys) (hdelimits : Delimits text') :
    Spelled (text ++ text') (xs ++ ys) := by
  intro tail zs htail hzs
  rw [List.append_assoc, List.append_assoc]
  apply h _ _ _ (h' tail zs htail hzs)
  cases text' with
  | nil => exact htail
  | cons c text' => exact hdelimits

theorem spells (h : Spelled text xs) : Spells text xs := by
  have hspells := h [] [] (by simp [Delimits]) .nil
  rwa [List.append_nil, List.append_nil] at hspells

theorem closeParen : Spelled [')'] [.symbol .closeParen] :=
  lexeme (x := .symbol .closeParen) (by simp)

theorem delimits_cons {c : Char} (hc : c ∈ delimiters) :
    Delimits (c :: text) := by
  intro c' hc'
  cases hc'
  exact hc

/-- In parentheses a text writes its lexemes in parentheses. -/
theorem parenthesized (h : Spelled text xs) :
    Spelled ('(' :: text ++ [')']) (Query.parenthesized xs) := by
  have hopen : (Lexeme.symbol .openParen).Closed := fun _ => rfl
  exact cons hopen (h.append closeParen (delimits_cons (by decide)))

/-- A symbol between blanks. -/
theorem between (h : Spelled text xs) {s : Symbol} (hs : s ≠ .slash) (h' : Spelled text' ys) :
    Spelled (text ++ ' ' :: (s.spelling.toList ++ ' ' :: text')) (xs ++ .symbol s :: ys) := by
  have hsymbol : Spelled (Lexeme.symbol s).chars [.symbol s] := lexeme (by simpa using hs)
  exact h.append (hsymbol.append h'.blank (delimits_cons (by decide))).blank
    (delimits_cons (by decide))

end Spelled

/-! ## Expressions -/

/-- The text of the expression writes these lexemes, and they are read as an expression that is the
same, with as many levels of operands as the text nests. -/
structure Expr.Shows (e : Expr) (xs : List Lexeme) (e' : Expr) : Prop where
  spelled : Spelled e.text.toList xs
  leads : Leads false false xs true false
  reads {limit depth : Nat} (hlimit : depth + e.levels ≤ limit) :
    ReadsAs limit depth e.textPower xs e'
  same : e'.same e = true

theorem BinaryOp.spelling_symbol (op : BinaryOp) : op.symbol.spelling = op.spelling := by
  cases op with
  | or => rfl
  | and => rfl
  | compare op => cases op <;> rfl
  | arithmetic op => cases op <;> rfl

theorem BinaryOp.symbol_ne_slash (op : BinaryOp) : op.symbol ≠ .slash := by
  cases op with
  | or => decide
  | and => decide
  | compare op => cases op <;> decide
  | arithmetic op => cases op <;> decide

namespace Expr.Shows

variable {e left right left' right' e' : Expr} {xs ys : List Lexeme}

/-- The text of a number is a numeral that reads back as the same double. -/
theorem number {value : Float} {n : Numeral} (hchars : n.chars = (plain value).toList)
    (hsame : (n.value == value) = true) :
    (Expr.number value).Shows [.number n] (.number n.value) where
  spelled := by
    have htext : (Expr.number value).text = plain value := rfl
    rw [htext, ← hchars]
    exact Spelled.lexeme (x := .number n) (by simp)
  leads := ⟨trivial, rfl, rfl⟩
  reads hlimit := .of_operand ⟨⟨_, _, rfl, rfl⟩, trivial, readsPrimary_number n⟩ hlimit
  same := by rw [Expr.same, hsame]

/-- The text of a string is a literal, in the quotation marks that its value does not hold. -/
theorem string {value : String} {l : Literal}
    (hchars : (quoted value).toList = (Lexeme.string l).chars) (hvalue : l.text = value) :
    (Expr.string value).Shows [.string l] (.string l.text) where
  spelled := by
    have htext : (Expr.string value).text = quoted value := rfl
    rw [htext, hchars]
    exact Spelled.lexeme (by simp)
  leads := ⟨trivial, rfl, rfl⟩
  reads hlimit := .of_operand ⟨⟨_, _, rfl, rfl⟩, trivial, readsPrimary_string l⟩ hlimit
  same := by simp [Expr.same, hvalue]

/-- A negated expression is written with parentheses, so it is read as one whatever is inside. -/
theorem not (h : e.Shows xs e') :
    (Expr.not e).Shows (.symbol .not :: parenthesized xs) (.not e') where
  spelled := by
    have hword : Spelled (Lexeme.symbol .not).chars [.symbol .not] := Spelled.lexeme (by simp)
    have htext : (Expr.not e).text = "not(" ++ e.text ++ ")" := rfl
    simpa [htext, Lexeme.chars, Symbol.spelling] using
      hword.append h.spelled.parenthesized (Spelled.delimits_cons (by decide))
  leads := ⟨rfl, h.leads.parenthesized⟩
  reads {limit depth} hlimit := by
    rw [Expr.levels] at hlimit
    have harg : ReadsAs limit (depth + 1) e.textPower xs e' := h.reads (by omega)
    exact .of_operand ⟨⟨_, _, rfl, rfl⟩, rfl, harg.union.not harg.opens⟩ (by omega)
  same := by rw [Expr.same, h.same]

/-- The operand of a minus is written bare and has to bind tightly enough to be read whole. -/
theorem negate (h : e.Shows xs e') (hpower : negationPower ≤ e.textPower) :
    (Expr.negate e).Shows (.symbol .minus :: xs) (.negate e') where
  spelled := by
    have hminus : (Lexeme.symbol .minus).Closed := fun _ => rfl
    have htext : (Expr.negate e).text = "-" ++ e.text := rfl
    simpa [htext, Lexeme.chars, Symbol.spelling] using Spelled.cons hminus h.spelled
  leads := ⟨Lexeme.fits_sign (by decide), h.leads⟩
  reads {limit depth} hlimit := by
    have hpos := Expr.levels_pos (Nat.le_trans (by decide) hpower)
    rw [Expr.levels] at hlimit
    have harg : ReadsAs limit (depth + 1) e.textPower xs e' := h.reads (by omega)
    exact .negate (harg.readsBinary (by decide) hpower (by omega)) harg.opens (by omega)
  same := by rw [Expr.same, h.same]

section Binary

variable {op : BinaryOp} (hleft : left.Shows xs left') (hright : right.Shows ys right')
  (hpower : op.power ≤ left.textPower) (hpower' : op.power < right.textPower)
include hleft hright hpower hpower'

/-- An operator and its operands without parentheses. -/
theorem readsAs_operator {limit depth : Nat}
    (hlimit : depth + max left.levels (right.levels + 1) ≤ limit) :
    ReadsAs limit depth op.power (xs ++ .symbol op.symbol :: ys) (.binary op left' right') := by
  have hop := (power_bounds op).1
  have hpos := Expr.levels_pos (Nat.le_trans hop (Nat.le_of_lt hpower'))
  have hxs : ReadsAs limit depth left.textPower xs left' := hleft.reads (by omega)
  have hys : ReadsAs limit (depth + 1) right.textPower ys right' := hright.reads (by omega)
  have hspine := (hxs.spine (Nat.le_trans hop hpower)).mono hpower
  have hbinary := hys.readsBinary (Nat.le_succ_of_le hop) hpower' (by omega)
  exact .binary hspine hxs.opens hbinary hys.opens (by omega)

omit hpower hpower' in
theorem spelled_operator :
    Spelled (left.text ++ " " ++ op.spelling ++ " " ++ right.text).toList
      (xs ++ .symbol op.symbol :: ys) := by
  simpa [BinaryOp.spelling_symbol] using hleft.spelled.between op.symbol_ne_slash hright.spelled

omit hpower hpower' in
theorem leads_operator : Leads false false (xs ++ .symbol op.symbol :: ys) true false :=
  hleft.leads.append ((Query.leads_operator op).append hright.leads)

/-- A comparison stands without parentheses, and every other operator in them. -/
theorem binary : ∃ zs, (Expr.binary op left right).Shows zs (.binary op left' right') := by
  have hspelled : Spelled (left.text ++ " " ++ op.spelling ++ " " ++ right.text).toList
      (xs ++ .symbol op.symbol :: ys) := hleft.spelled_operator hright
  have hleads : Leads false false (xs ++ .symbol op.symbol :: ys) true false :=
    hleft.leads_operator hright
  have htext : (Expr.binary op left right).text = op.join left.text right.text := rfl
  have hsame : (Expr.binary op left' right').same (.binary op left right) = true := by
    simp [Expr.same, hleft.same, hright.same]
  have hbare {limit depth : Nat} (hlimit : depth + max left.levels (right.levels + 1) ≤ limit) :
      ReadsAs limit depth op.power (xs ++ .symbol op.symbol :: ys) (.binary op left' right') :=
    hleft.readsAs_operator hright hpower hpower' hlimit
  have hinside {limit depth : Nat}
      (hlimit : depth + (max left.levels (right.levels + 1) + 1) ≤ limit) :
      ReadsAs limit depth negationPower (parenthesized (xs ++ .symbol op.symbol :: ys))
        (.binary op left' right') :=
    .of_operand (hbare (by omega)).parenthesized (by omega)
  cases op with
  | compare op => exact ⟨_, hspelled, hleads, hbare, hsame⟩
  | _ =>
      have hinParens := hspelled.parenthesized
      exact ⟨_, by simpa [htext, BinaryOp.join] using hinParens, hleads.parenthesized, hinside,
        hsame⟩

end Binary

end Expr.Shows

/-! ## Attributes and calls -/

theorem Pattern.toList_text_test (p : Pattern) : p.test.text.toList = p.lexeme.chars := by
  cases p with
  | star => rfl
  | named w => exact String.toList_ofList

theorem Pattern.spelled (p : Pattern) : Spelled p.test.text.toList [p.lexeme] := by
  rw [p.toList_text_test]
  exact Spelled.lexeme (by cases p <;> simp [Pattern.lexeme])

theorem Spelled.attribute (p : Pattern) :
    Spelled ('@' :: p.test.text.toList) [.symbol .atSign, p.lexeme] :=
  Spelled.cons (x := .symbol .atSign) (fun _ => rfl) p.spelled

theorem Spelled.call (w : Word) {text : List Char} {xs : List Lexeme} (h : Spelled text xs) :
    Spelled (w.text.toList ++ '(' :: text ++ [')']) (.name w :: Query.parenthesized xs) := by
  have hname : Spelled w.text.toList [.name w] := by
    rw [Word.text, String.toList_ofList]
    exact Spelled.lexeme (x := .name w) (by simp)
  simpa using hname.append h.parenthesized (Spelled.delimits_cons (by decide))

namespace Expr.Shows

variable {e e' whole whole' part part' : Expr} {xs ys : List Lexeme}

theorem attributeTest (p : Pattern) :
    (Expr.attribute p.test).Shows [.symbol .atSign, p.lexeme] (.attribute p.test) where
  spelled := by
    have htext : (Expr.attribute p.test).text = "@" ++ p.test.text := rfl
    simpa [htext] using Spelled.attribute p
  leads := ⟨Lexeme.fits_sign (by decide), leads_pattern p⟩
  reads hlimit := .of_operand (readsOperand_attribute p) hlimit
  same := by simp [Expr.same]

theorem constant (c : Constant) :
    (Expr.call c.word.text []).Shows (.name c.word :: parenthesized []) (.call c.word.text []) where
  spelled := by
    have htext : (Expr.call c.word.text []).text = c.word.text ++ "(" ++ "" ++ ")" := rfl
    simpa [htext] using Spelled.call c.word Spelled.nil
  leads := leads_call c.word (by cases c <;> decide) ⟨rfl, rfl⟩
  reads hlimit := by
    have harity : arity? c.word.text = some 0 := by cases c <;> decide
    exact .of_operand ⟨⟨_, _, rfl, rfl⟩, trivial,
      ReadsInside.readsPrimary (.inl ⟨rfl, rfl⟩) harity⟩ hlimit
  same := by simp [Expr.same, Expr.sameList]

/-- The one call with two arguments. Its arguments nest one level deeper than the call. -/
theorem contains (hwhole : whole.Shows xs whole') (hpart : part.Shows ys part') :
    (Expr.call containsWord.text [whole, part]).Shows
      (.name containsWord :: parenthesized (xs ++ .symbol .comma :: ys))
      (.call containsWord.text [whole', part']) where
  spelled := by
    have hcomma : Spelled (',' :: ' ' :: part.text.toList) (.symbol .comma :: ys) :=
      Spelled.cons (x := .symbol .comma) (fun _ => rfl) hpart.spelled.blank
    have hargs := hwhole.spelled.append hcomma (Spelled.delimits_cons (by decide))
    have htext : (Expr.call containsWord.text [whole, part]).text =
        containsWord.text ++ "(" ++ (whole.text ++ ", " ++ part.text) ++ ")" := rfl
    simpa [htext] using Spelled.call containsWord hargs
  leads := leads_call containsWord (by decide)
    (hwhole.leads.append ⟨Lexeme.fits_sign (by decide), hpart.leads⟩)
  reads {limit depth} hlimit := by
    simp only [Expr.levels, Expr.allLevels] at hlimit
    have hxs : ReadsAs limit (depth + 1) whole.textPower xs whole' := hwhole.reads (by omega)
    have hys : ReadsAs limit (depth + 1) part.textPower ys part' := hpart.reads (by omega)
    have hargs := (hys.union.lastArgument hys.opens).cons hxs.union hxs.opens hys.opens
    exact .of_operand ⟨⟨_, _, rfl, rfl⟩, trivial,
      ReadsInside.readsPrimary (.inr ⟨hxs.opens.append _, hargs⟩) rfl⟩ (by omega)
  same := by simp [Expr.same, Expr.sameList, hwhole.same, hpart.same]

end Expr.Shows

/-! ## Predicates and steps -/

/-- The text of the predicates is read back as the same ones. -/
structure ShowsPredicates (predicates : List Expr) (xs : List Lexeme) (predicates' : List Expr) :
    Prop where
  spelled : Spelled (Expr.predicatesText predicates).toList xs
  delimits : Delimits (Expr.predicatesText predicates).toList
  leads : Leads true false xs true false
  reads {limit depth : Nat} (hlimit : depth + Expr.allLevels predicates ≤ limit) :
    ReadsPredicates limit depth xs predicates'
  same : Expr.sameList predicates' predicates = true

/-- The text of steps behind a step is read back as the same steps. -/
structure ShowsLater (steps : List (Step Expr)) (xs : List Lexeme) (steps' : List (Step Expr)) :
    Prop where
  spelled : Spelled (Expr.stepsText false steps).toList xs
  delimits : Delimits (Expr.stepsText false steps).toList
  leads : Leads true false xs true false
  reads {limit depth : Nat} (hlimit : depth + Expr.stepsLevels steps ≤ limit) :
    ReadsLater limit depth xs steps'
  same : Expr.sameSteps steps' steps = true

theorem ShowsPredicates.nil : ShowsPredicates [] [] [] where
  spelled := Spelled.nil
  delimits := by simp [Delimits, Expr.predicatesText]
  leads := ⟨rfl, rfl⟩
  reads _ := .none
  same := by simp [Expr.sameList]

/-- A predicate between its brackets, in front of others. What is read is no number, so the grammar
leaves it as it is. -/
theorem ShowsPredicates.cons {e e' : Expr} {predicates predicates' : List Expr}
    {xs ys : List Lexeme} (h : (positional e).Shows xs e')
    (hlater : ShowsPredicates predicates ys predicates') :
    ShowsPredicates (positional e :: predicates)
      (.symbol .openBracket :: (xs ++ .symbol .closeBracket :: ys)) (e' :: predicates') where
  spelled := by
    have hclose : Spelled (']' :: (Expr.predicatesText predicates).toList)
        (.symbol .closeBracket :: ys) :=
      Spelled.cons (x := .symbol .closeBracket) (fun _ => rfl) hlater.spelled
    have hinside := h.spelled.append hclose (Spelled.delimits_cons (by decide))
    simpa [Expr.predicatesText, Lexeme.chars, Symbol.spelling] using
      Spelled.cons (x := .symbol .openBracket) (fun _ => rfl) hinside
  delimits := by simp [Delimits, Expr.predicatesText, delimiters]
  leads := ⟨Lexeme.fits_sign (by decide),
    h.leads.append ⟨Lexeme.fits_sign (by decide), hlater.leads⟩⟩
  reads {limit depth} hlimit := by
    rw [Expr.allLevels] at hlimit
    have hxs : ReadsAs limit depth (positional e).textPower xs e' := h.reads (by omega)
    have hys : ReadsPredicates limit depth ys predicates' := hlater.reads (by omega)
    have hpredicates := ReadsPredicates.some hxs.opens hxs.union hys
    rwa [positional_of_same h.same] at hpredicates
  same := by simp [Expr.sameList, h.same, hlater.same]

theorem ShowsLater.nil : ShowsLater [] [] [] where
  spelled := Spelled.nil
  delimits := by simp [Delimits, Expr.stepsText]
  leads := ⟨rfl, rfl⟩
  reads _ := .none
  same := by simp [Expr.sameSteps]

/-- Behind a separator stands no slash. -/
theorem Spelled.separator (separator : Separator) {c : Char} {text : List Char} {xs : List Lexeme}
    (hc : c ≠ '/') (h : Spelled (c :: text) xs) :
    Spelled (separator.symbol.spelling.toList ++ c :: text) (.symbol separator.symbol :: xs) := by
  intro tail ys htail hys
  rw [List.append_assoc, List.cons_append]
  refine Spells.lexeme (x := .symbol separator.symbol) ?_ (h tail ys htail hys)
  cases separator with
  | slash => simpa [Lexeme.EndsBefore, Separator.symbol, Lexeme.stopsAt] using hc
  | doubleSlash => exact fun _ _ => rfl

theorem Spelled.delimits_separator (separator : Separator) (text : List Char) :
    Delimits (separator.symbol.spelling.toList ++ text) := by
  cases separator <;> exact Spelled.delimits_cons (by decide)

/-- A last step that tests an attribute: nothing stands behind it. -/
theorem ShowsLater.attributeStep (p : Pattern) :
    ShowsLater (attributeSteps .slash p) (attributeLexemes .slash p) (attributeSteps .slash p) where
  spelled := by
    simpa [attributeSteps, Separator.descent, Expr.stepsText, Expr.stepText, Axis.separator,
      stepHead, Expr.predicatesText, attributeLexemes, Separator.symbol, Symbol.spelling]
      using (Spelled.attribute p).separator .slash (by decide)
  delimits := by
    simp [attributeSteps, Separator.descent, Expr.stepsText, Expr.stepText, Axis.separator,
      Delimits, delimiters]
  leads := leads_attribute .slash p
  reads _ := .some .slash (.last .slash p)
  same := by simp [attributeSteps, Separator.descent, Expr.sameSteps, Expr.sameStep, Expr.sameList]

/-- The step is the only one that it stands for behind the separator. -/
def Head.Explicit (separator : Separator) : Head → Prop
  | .element _ => True
  | _ => separator = .slash

/-- The text of the step without the separator. -/
theorem Head.exists_chars (head : Head) : ∃ c cs, head.lexeme.chars = c :: cs ∧ c ≠ '/' := by
  cases head with
  | element p =>
      cases p with
      | star => exact ⟨_, _, rfl, by decide⟩
      | named w => exact ⟨_, _, rfl, w.first_ne (by decide)⟩
  | _ => exact ⟨_, _, rfl, by decide⟩

/-- A head that is written out has one step; its text begins with the separator unless it is the
first step and the separator is a slash. -/
theorem Head.Explicit.exists_step {separator : Separator} {head : Head}
    (h : head.Explicit separator) : ∃ axis test, ∀ predicates : List Expr,
      head.steps separator predicates = [⟨axis, test, predicates⟩] ∧
        (Expr.stepText false ⟨axis, test, predicates⟩).toList = separator.symbol.spelling.toList ++
          (head.lexeme.chars ++ (Expr.predicatesText predicates).toList) ∧
        (separator = .slash → (Expr.stepText true ⟨axis, test, predicates⟩).toList =
          head.lexeme.chars ++ (Expr.predicatesText predicates).toList) := by
  cases head with
  | element p =>
      refine ⟨separator.axis, .element p.test, fun predicates => ⟨rfl, ?_, ?_⟩⟩
      · cases separator <;> simp [Expr.stepText, stepHead, Separator.axis, Axis.separator,
          Head.lexeme, p.toList_text_test, Separator.symbol, Symbol.spelling]
      · rintro rfl
        simp [Expr.stepText, stepHead, Separator.axis, Axis.separator, Head.lexeme,
          p.toList_text_test]
  | dot =>
      cases h
      exact ⟨.self, .any, fun _ => ⟨rfl, by simp [Expr.stepText, stepHead, Axis.separator,
        Head.lexeme, Lexeme.chars, Separator.symbol, Symbol.spelling], fun _ => by
          simp [Expr.stepText, stepHead, Axis.separator, Head.lexeme, Lexeme.chars,
            Symbol.spelling]⟩⟩
  | doubleDot =>
      cases h
      exact ⟨.parent, .any, fun _ => ⟨rfl, by simp [Expr.stepText, stepHead, Axis.separator,
        Head.lexeme, Lexeme.chars, Separator.symbol, Symbol.spelling], fun _ => by
          simp [Expr.stepText, stepHead, Axis.separator, Head.lexeme, Lexeme.chars,
            Symbol.spelling]⟩⟩

theorem Head.lexeme_ne_slash (head : Head) : head.lexeme ≠ .symbol .slash := by
  cases head with
  | element p => cases p <;> simp [Head.lexeme, Pattern.lexeme]
  | _ => simp [Head.lexeme]

section Step

variable {separator : Separator} {head : Head} {predicates predicates' : List Expr}
  {later later' : List (Step Expr)} {xs ys : List Lexeme}
  (hpredicates : ShowsPredicates predicates xs predicates') (hlater : ShowsLater later ys later')
include hpredicates hlater

theorem ShowsPredicates.spelled_step (head : Head) :
    Spelled (head.lexeme.chars ++ (Expr.predicatesText predicates).toList ++
      (Expr.stepsText false later).toList) (head.lexeme :: (xs ++ ys)) :=
  ((Spelled.lexeme head.lexeme_ne_slash).append hpredicates.spelled hpredicates.delimits).append
    hlater.spelled hlater.delimits

theorem ShowsPredicates.step (hhead : head.Explicit separator) :
    ShowsLater (head.steps separator predicates ++ later)
      (.symbol separator.symbol :: head.lexeme :: (xs ++ ys))
      (head.steps separator predicates' ++ later') := by
  obtain ⟨axis, test, hsteps⟩ := hhead.exists_step
  obtain ⟨hstep, htext, -⟩ := hsteps predicates
  have hsteps' := (hsteps predicates').1
  have hspelled := hpredicates.spelled_step hlater head
  obtain ⟨c, cs, hchars, hc⟩ := head.exists_chars
  rw [hchars, List.cons_append, List.cons_append] at hspelled
  have hspelled' := hspelled.separator separator hc
  have hstepsText : (Expr.stepsText false (head.steps separator predicates ++ later)).toList =
      separator.symbol.spelling.toList ++ c :: (cs ++ (Expr.predicatesText predicates).toList ++
        (Expr.stepsText false later).toList) := by
    simp [hstep, Expr.stepsText, htext, hchars]
  refine ⟨?_, ?_, ?_, ?_, ?_⟩
  · rwa [hstepsText]
  · rw [hstepsText]
    exact Spelled.delimits_separator separator _
  · exact leads_step separator head (hpredicates.leads.append hlater.leads)
  · intro limit depth hlimit
    rw [hstep, List.singleton_append, Expr.stepsLevels] at hlimit
    exact .some separator (.step separator head (hpredicates.reads (by omega))
      (hlater.reads (by omega)))
  · simp [hstep, hsteps', Expr.sameSteps, Expr.sameStep, hpredicates.same, hlater.same]

/-- A relative path starts with a step without a separator. -/
theorem ShowsPredicates.relativePath (hhead : head.Explicit .slash) (hnot : head.isNot = false) :
    (Expr.path ⟨false, head.steps .slash predicates ++ later⟩).Shows
      (head.lexeme :: (xs ++ ys)) (.path ⟨false, head.steps .slash predicates' ++ later'⟩) := by
  obtain ⟨axis, test, hsteps⟩ := hhead.exists_step
  obtain ⟨hstep, -, htext⟩ := hsteps predicates
  have hsteps' := (hsteps predicates').1
  refine ⟨?_, ?_, ?_, ?_⟩
  · have hspelled := hpredicates.spelled_step hlater head
    simpa [hstep, Expr.text, Expr.pathText, Expr.stepsText, htext] using hspelled
  · have hlead : Leads false false [head.lexeme] true false := leads_head fun _ => hnot
    exact hlead.append (hpredicates.leads.append hlater.leads)
  · intro limit depth hlimit
    simp only [hstep, Expr.levels, Expr.pathLevels, List.singleton_append, Expr.stepsLevels]
      at hlimit
    have hreads : ReadsSteps limit (depth + 1) .slash (head.lexeme :: (xs ++ ys))
        (head.steps .slash predicates' ++ later') :=
      .step .slash head (hpredicates.reads (by omega)) (hlater.reads (by omega))
    exact .of_operand hreads.relativePath (by omega)
  · simp [hstep, hsteps', Expr.same, Expr.samePath, Expr.sameSteps, Expr.sameStep,
      hpredicates.same, hlater.same]

end Step

/-- An absolute path is written like further steps. -/
theorem ShowsLater.absolutePath {separator : Separator} {steps steps' : List (Step Expr)}
    {xs : List Lexeme} (h : ShowsLater steps (.symbol separator.symbol :: xs) steps') :
    (Expr.path ⟨true, steps⟩).Shows (.symbol separator.symbol :: xs) (.path ⟨true, steps'⟩) where
  spelled := by simpa [Expr.text, Expr.pathText] using h.spelled
  leads := by
    have hleads := h.leads
    cases separator <;> exact ⟨Lexeme.fits_sign (by decide), hleads.2⟩
  reads {limit depth} hlimit := by
    simp only [Expr.levels, Expr.pathLevels] at hlimit
    have hreads : ReadsLater limit (depth + 1) (.symbol separator.symbol :: xs) steps' :=
      h.reads (by omega)
    generalize hys : Lexeme.symbol separator.symbol :: xs = ys at hreads
    cases hreads with
    | none => cases hys
    | some separator' hsteps => exact .of_operand hsteps.absolutePath (by omega)
  same := by simp [Expr.same, Expr.samePath, h.same]

/-! ## Unions -/

/-- Steps that are the same test the same at their end, so both paths end in an attribute or neither
does. -/
theorem test_getLast?_of_sameSteps : ∀ {ss ts : List (Step Expr)}, Expr.sameSteps ss ts = true →
    ss.getLast?.map Step.test = ts.getLast?.map Step.test
  | [], [], _ => rfl
  | [⟨_, _, _⟩], [⟨_, _, _⟩], h => by
      simp only [Expr.sameSteps, Expr.sameStep, Bool.and_eq_true, beq_iff_eq] at h
      simp [h.1.1.2]
  | _ :: s :: ss, _ :: t :: ts, h => by
      rw [Expr.sameSteps, Bool.and_eq_true] at h
      rw [List.getLast?_cons_cons, List.getLast?_cons_cons]
      exact test_getLast?_of_sameSteps h.2
  | [], _ :: _, h => by simp [Expr.sameSteps] at h
  | _ :: _, [], h => by simp [Expr.sameSteps] at h
  | [_], _ :: _ :: _, h => by simp [Expr.sameSteps] at h
  | _ :: _ :: _, [_], h => by simp [Expr.sameSteps] at h

theorem endsInAttribute_of_samePath {p p' : Path Expr} (h : Expr.samePath p' p = true) :
    p'.endsInAttribute = p.endsInAttribute := by
  have hany : ∀ q : Path Expr,
      q.endsInAttribute = (q.steps.getLast?.map Step.test).any NodeTest.isAttribute := by
    intro q
    rw [Path.endsInAttribute, Option.any_map]
  rw [Expr.samePath, Bool.and_eq_true] at h
  rw [hany, hany, test_getLast?_of_sameSteps h.2]

/-- The text of further paths of a union, each behind its bar. -/
def barredText : List (Path Expr) → String
  | [] => ""
  | p :: rest => " | " ++ Expr.pathText p ++ barredText rest

theorem pathsText_cons (p : Path Expr) (paths : List (Path Expr)) :
    Expr.pathsText (p :: paths) = Expr.pathText p ++ barredText paths := by
  induction paths generalizing p with
  | nil => simp [Expr.pathsText, barredText]
  | cons q paths ih => simp [Expr.pathsText, barredText, ih q, String.append_assoc]

/-- The text of further paths of a union is read back as the same paths. -/
structure ShowsPaths (paths : List (Path Expr)) (xs : List Lexeme) (paths' : List (Path Expr)) :
    Prop where
  spelled : Spelled (barredText paths).toList xs
  delimits : Delimits (barredText paths).toList
  leads : Leads true false xs true false
  reads {limit depth : Nat} (hlimit : depth + Expr.pathsLevels paths ≤ limit) :
    ReadsPaths limit depth xs paths'
  same : Expr.samePaths paths' paths = true

theorem ShowsPaths.nil : ShowsPaths [] [] [] where
  spelled := Spelled.nil
  delimits := by simp [Delimits, barredText]
  leads := ⟨rfl, rfl⟩
  reads _ := .none
  same := by simp [Expr.samePaths]

section Union

variable {p p' : Path Expr} {paths paths' : List (Path Expr)} {xs ys : List Lexeme}
  (h : (Expr.path p).Shows xs (.path p')) (hends : p.endsInAttribute = false)
include h hends

theorem Expr.Shows.samePath :
    Expr.samePath p' p = true ∧ p'.endsInAttribute = false := by
  have hsame := h.same
  rw [Expr.same] at hsame
  exact ⟨hsame, by rw [endsInAttribute_of_samePath hsame, hends]⟩

/-- A further operand of a union stands behind its bar. -/
theorem ShowsPaths.cons (hlater : ShowsPaths paths ys paths') :
    ShowsPaths (p :: paths) (.symbol .pipe :: (xs ++ ys)) (p' :: paths') where
  spelled := by
    have hpath := (h.spelled.append hlater.spelled hlater.delimits).blank
    have hbar := (Spelled.cons (x := .symbol .pipe) (fun _ => rfl) hpath).blank
    simpa [barredText, Expr.text, Lexeme.chars, Symbol.spelling] using hbar
  delimits := by simp [Delimits, barredText, delimiters]
  leads := ⟨Lexeme.fits_sign (by decide), h.leads.append hlater.leads⟩
  reads {limit depth} hlimit := by
    rw [Expr.pathsLevels] at hlimit
    have hpos : 0 < (Expr.path p).levels :=
      Expr.levels_pos (by decide : loosestPower ≤ negationPower)
    have hpath : ReadsAs limit depth negationPower xs (.path p') :=
      h.reads (by rw [Expr.levels]; omega)
    rw [Expr.levels] at hpos
    exact .some hpath.opens (hpath.readsBinary (Nat.le_refl _) (by decide) (by omega))
      (h.samePath hends).2 (hlater.reads (by omega))
  same := by simp [Expr.samePaths, (h.samePath hends).1, hlater.same]

theorem Expr.Shows.union {q q' : Path Expr} (hlater : ShowsPaths (q :: paths) ys (q' :: paths')) :
    (Expr.union (p :: q :: paths)).Shows (xs ++ ys) (.union (p' :: q' :: paths')) where
  spelled := by
    have hpaths := h.spelled.append hlater.spelled hlater.delimits
    rw [Expr.text, pathsText_cons, String.toList_append]
    simpa [Expr.text] using hpaths
  leads := h.leads.append hlater.leads
  reads {limit depth} hlimit := by
    rw [Expr.levels, Expr.pathsLevels] at hlimit
    have hpos : 0 < (Expr.path p).levels :=
      Expr.levels_pos (by decide : loosestPower ≤ negationPower)
    have hpath : ReadsAs limit depth negationPower xs (.path p') :=
      h.reads (by rw [Expr.levels]; omega)
    rw [Expr.levels] at hpos
    have hpaths : ReadsPaths limit depth ys (q' :: paths') := hlater.reads (by omega)
    have hunion := hpaths.readsUnion (hpath.readsBinary (Nat.le_refl _) (by decide) (by omega))
      hpath.opens (h.samePath hends).2
    -- no operator takes a union without parentheses, so there is nothing to show of its spine
    exact ⟨hpath.opens.append _, hunion, fun hpower => absurd hpower (Nat.not_succ_le_zero 0)⟩
  same := by
    have hpaths := hlater.same
    rw [Expr.same, Expr.samePaths, (h.samePath hends).1, hpaths, Bool.and_self]

end Union

end MarkupPath.Query
