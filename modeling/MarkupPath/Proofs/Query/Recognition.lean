import MarkupPath.Proofs.Query.Grammar
import MarkupPath.Proofs.Query.Paths
import MarkupPath.Proofs.Query.Scan

/-!
# Expressions are phrases

Every expression that is read from a text is the tree of a phrase: `exists_phrase_of_ofText`. The
lexer reads only tokens that lexemes write, and the name `not` only where a step is due, by
`admits_of_tokens`; and what the rules of the grammar make of trees of phrases is one again, by
`keeps_isTree`.
-/

set_option autoImplicit false

namespace MarkupPath.Query

open MarkupPath.Text MarkupPath.Number

/-! ## Tokens are those of lexemes -/

/-- The token is the end or one that a lexeme writes, and the name `not` only where a step is
due. -/
def Readable (due : Bool) (k : TokenKind) : Prop :=
  (k.isStop = false → ∃ x : Lexeme, x.kind = k) ∧ (k = .name Symbol.not.spelling → due = true)

section Readable

variable {due : Bool}

theorem Lexeme.readable_kind (x : Lexeme) (h : x.kind = .name Symbol.not.spelling → due = true) :
    Readable due x.kind :=
  ⟨fun _ => ⟨x, rfl⟩, h⟩

theorem readable_stop : Readable due .stop := ⟨(nomatch ·), (nomatch ·)⟩

theorem readable_symbol (s : Symbol) : Readable due (.symbol s) :=
  (Lexeme.symbol s).readable_kind (nomatch ·)

theorem Numeral.readable (n : Numeral) : Readable due (.number n.value) :=
  (Lexeme.number n).readable_kind (nomatch ·)

theorem Literal.readable (l : Literal) : Readable due (.string l.text) :=
  (Lexeme.string l).readable_kind (nomatch ·)

end Readable

/-- A point behind the last digit does not change the number. -/
theorem numeralValue_append_point {ds : List Char} (hds : ∀ c ∈ ds, c.isDigit = true) :
    numeralValue (ds ++ ['.']) = numeralValue ds := by
  have hpoint : splitDigits (ds ++ ['.']) = (ds, ['.']) := splitDigits_append hds (by simp)
  have hwhole : splitDigits (ds ++ []) = (ds, []) := splitDigits_append hds (by simp)
  rw [List.append_nil] at hwhole
  simp only [numeralValue, hpoint, hwhole]
  rfl

/-- A numeral has the value of a number as it is written in phrases. -/
theorem exists_numeral {numeral : List Char} {stops : Char → Bool} (h : IsNumeral numeral stops) :
    ∃ n : Numeral, n.value = (numeralValue numeral).toFloat := by
  cases h with
  | whole hne hdigits =>
      obtain ⟨d, hd⟩ := exists_digits hne hdigits
      exact ⟨.whole d, by rw [Numeral.value, Numeral.chars, hd]⟩
  | @pointed whole fraction hne hwhole hfraction =>
      by_cases hempty : whole = []
      · obtain ⟨d, hd⟩ := exists_digits (hne.resolve_left (not_not_intro hempty)) hfraction
        exact ⟨.fraction d, by rw [Numeral.value, Numeral.chars, hd, hempty, List.nil_append]⟩
      · obtain ⟨d, hd⟩ := exists_digits hempty hwhole
        by_cases hnone : fraction = []
        · refine ⟨.whole d, ?_⟩
          rw [Numeral.value, Numeral.chars, hd, hnone, numeralValue_append_point hwhole]
        · obtain ⟨d', hd'⟩ := exists_digits hnone hfraction
          exact ⟨.decimal d d', by rw [Numeral.value, Numeral.chars, hd, hd']⟩

namespace Lexer

variable {l l' : Lexer}

/-- A word is an operator or a name, and the name `not` only where a step is due. -/
theorem readable_wordKind (w : Word) : Readable l.stepDue (l.wordKind w.chars) := by
  unfold wordKind
  split
  · exact readable_symbol _
  · split
    · exact readable_symbol _
    · next hword =>
        apply (Lexeme.name w).readable_kind
        intro heq
        have hchars : w.chars = Symbol.not.spelling.toList := by
          have hname := TokenKind.name.inj heq
          rw [← hname, Word.text, String.toList_ofList]
        simpa [hchars] using hword

/-- The lexer reads only what a lexeme writes, branch by branch of the scan. -/
theorem readable_of_scan {text : List Char} {kind : TokenKind} {count : Nat}
    (h : l.scan text = (.ok kind, count)) : Readable l.stepDue kind := by
  cases hk : kind.isStop with
  | true =>
      cases kind with
      | stop => exact readable_stop
      | _ => cases hk
  | false =>
      obtain ⟨_, _, _, -, -, hreading, -⟩ := exists_reading_of_scan h hk
      cases hreading with
      | number hnumeral =>
          obtain ⟨n, hn⟩ := exists_numeral hnumeral
          rw [← hn]
          exact n.readable
      | string x => exact x.readable
      | word w => exact readable_wordKind (l := ⟨[], 0, l.afterOperand, l.stepDue⟩) w
      | sign => exact readable_symbol _

/-- The token that is read is readable, and a step is due behind it exactly if it announces one. -/
theorem readable_of_next {t : Token} (h : l.next = (.ok t, l')) :
    Readable l.stepDue t.kind ∧ (t.kind.isStop = false → l'.stepDue = announcesStep t.kind) := by
  unfold next at h
  simp only at h
  split at h
  · next hscan =>
      cases h
      exact ⟨readable_of_scan hscan, (nomatch ·)⟩
  · next hscan =>
      cases h
      exact ⟨readable_of_scan hscan, fun _ => rfl⟩
  · cases h

end Lexer

/-- The tokens of a text are admitted one behind the other, by induction on the run of the lexer. -/
theorem admits_of_tokensFrom {l : Lexer} {ts : List Token} (h : tokensFrom l = .ok ts) :
    Admits Readable l.stepDue (ts.map Token.kind) := by
  fun_induction tokensFrom l generalizing ts with
  | case1 => cases h
  | case2 l t l' hnext hstop =>
      cases h
      exact ⟨(Lexer.readable_of_next hnext).1, trivial⟩
  | case3 => cases h
  | case4 l t l' hnext hstop later hlater ih =>
      cases h
      obtain ⟨hreadable, hdue⟩ := Lexer.readable_of_next hnext
      refine ⟨hreadable, ?_⟩
      rw [← hdue (Bool.eq_false_iff.2 hstop)]
      exact ih hlater

/-- The lexer reads tokens that lexemes write, and the name `not` only behind a slash or the sign of
an attribute. -/
theorem admits_of_tokens {text : List Char} {ts : List Token} (h : tokens text = .ok ts) :
    Admits Readable false (ts.map Token.kind) :=
  admits_of_tokensFrom (l := Lexer.start text) h

/-! ## Rules make trees of phrases -/

/-- The expression is what a phrase stands for. -/
def IsTree (e : Expr) : Prop := ∃ p : Phrase, p.tree = e

/-- The steps are what the steps of a path phrase, with or without an attribute, stand for behind a
separator. -/
inductive IsSteps (due : Bool) (separator : Separator) : List (Step Expr) → Prop where
  | attributeStep (name : Pattern) : IsSteps due separator (attributeSteps separator name)
  | elements (head : Head) (admitted : due = false → head.isNot = false) (predicates : List Phrase)
      (later : List StepPhrase) :
      IsSteps due separator
        (head.steps separator (Phrase.predicateTrees predicates) ++ StepPhrase.steps later)
  | attributePath (head : Head) (admitted : due = false → head.isNot = false)
      (predicates : List Phrase) (later : List StepPhrase) (next : Separator) (name : Pattern) :
      IsSteps due separator
        (head.steps separator (Phrase.predicateTrees predicates) ++ StepPhrase.steps later ++
          attributeSteps next name)

/-- A name is a word, and one that may stand where an operand does is not the word `not`. -/
theorem exists_word {due : Bool} {name : String} (h : Readable due (.name name)) :
    ∃ w : Word, w.text = name ∧ (due = false → w.chars ≠ Symbol.not.spelling.toList) := by
  obtain ⟨hlexeme, hnot⟩ := h
  obtain ⟨x, hx⟩ := hlexeme rfl
  cases x with
  | name w =>
      have hw : w.text = name := TokenKind.name.inj hx
      refine ⟨w, hw, ?_⟩
      intro hdue hchars
      have hname : name = Symbol.not.spelling := by
        rw [← hw, Word.text, hchars, String.ofList_toList]
      rw [hnot (congrArg TokenKind.name hname)] at hdue
      cases hdue
  | _ => cases hx

theorem exists_predicates {es : List Expr} (h : ∀ e ∈ es, IsTree e) :
    ∃ ps : List Phrase, Phrase.predicateTrees ps = es.map positional := by
  induction es with
  | nil => exact ⟨[], rfl⟩
  | cons e es ih =>
      obtain ⟨p, rfl⟩ := h e (by simp)
      obtain ⟨ps, hps⟩ := ih fun e he => h e (List.mem_cons_of_mem _ he)
      exact ⟨p :: ps, by rw [Phrase.predicateTrees, hps, List.map_cons]⟩

/-- A step by its head: an attribute, or one that selects elements. -/
theorem exists_head {due : Bool} {separator : Separator} {before : List (Step Expr)} {axis : Axis}
    {test : NodeTest} (h : StepHead Readable due separator before axis test) :
    (∃ name : Pattern, test.isAttribute = true ∧
        before ++ [⟨axis, test, []⟩] = attributeSteps separator name) ∨
      ∃ head : Head, (due = false → head.isNot = false) ∧ test.isAttribute = false ∧
        ∀ predicates, before ++ [⟨axis, test, predicates⟩] = head.steps separator predicates := by
  cases h with
  | dot => exact .inr ⟨.dot, fun _ => rfl, rfl, fun _ => rfl⟩
  | doubleDot => exact .inr ⟨.doubleDot, fun _ => rfl, rfl, fun _ => rfl⟩
  | star => exact .inr ⟨.element .star, fun _ => rfl, rfl, fun _ => rfl⟩
  | name hname =>
      obtain ⟨w, rfl, hnot⟩ := exists_word hname
      refine .inr ⟨.element (.named w), ?_, rfl, fun _ => rfl⟩
      intro hdue
      simpa [Head.isNot] using hnot hdue
  | anyAttribute => exact .inl ⟨.star, rfl, rfl⟩
  | namedAttribute hname =>
      obtain ⟨w, rfl, -⟩ := exists_word hname
      exact .inl ⟨.named w, rfl, rfl⟩

/-- A path that does not end in an attribute is that of a path phrase. -/
theorem IsTree.exists_pathPhrase {p : Path Expr} (h : IsTree (.path p))
    (hends : p.endsInAttribute = false) : ∃ q : PathPhrase, q.tree = p := by
  have hattribute : ∀ (separator : Separator) (name : Pattern),
      (attributeSteps separator name).getLast? = some ⟨.child, .attribute name.test, []⟩ := by
    intro separator name
    rw [attributeSteps, List.getLast?_concat]
  obtain ⟨e, he⟩ := h
  cases e with
  | path q => exact ⟨q, Expr.path.inj he⟩
  | attributePath q separator name =>
      have hp := Expr.path.inj he
      simp [← hp, Path.endsInAttribute, hattribute, NodeTest.isAttribute] at hends
  | rootAttribute separator name =>
      have hp := Expr.path.inj he
      simp [← hp, Path.endsInAttribute, hattribute, NodeTest.isAttribute] at hends
  | _ => cases he

/-- Operands of a union that are trees of phrases are those of a list of phrases. -/
theorem exists_pathPhrases {ps : List (Path Expr)}
    (h : ∀ p ∈ ps, IsTree (.path p) ∧ p.endsInAttribute = false) :
    ∃ qs : List PathPhrase, PathPhrase.trees qs = ps := by
  induction ps with
  | nil => exact ⟨[], rfl⟩
  | cons p ps ih =>
      obtain ⟨hp, hends⟩ := h p (by simp)
      obtain ⟨q, rfl⟩ := hp.exists_pathPhrase hends
      obtain ⟨qs, rfl⟩ := ih fun p hp => h p (List.mem_cons_of_mem _ hp)
      exact ⟨q :: qs, rfl⟩

/-- A call is the tree of a phrase if its arguments are. Each function of the table has its phrase;
a call that is not written with the word `not` cannot be of that name. -/
theorem isTree_call {name : String} {args : List Expr} (hname : Readable false (.name name))
    (harity : arity? name = some args.length) (hargs : ∀ e ∈ args, IsTree e) :
    IsTree (.call name args) := by
  have hmem : (name, args.length) ∈ functions := by
    obtain ⟨entry, hfind, hlength⟩ := Option.map_eq_some_iff.1 harity
    have hentry : entry.1 = name := by simpa using List.find?_some hfind
    rw [← hentry, ← hlength]
    exact List.mem_of_find?_eq_some hfind
  simp only [functions, List.mem_cons, List.not_mem_nil, or_false, Prod.mk.injEq] at hmem
  rcases hmem with ⟨rfl, hlength⟩ | ⟨rfl, hlength⟩ | ⟨rfl, hlength⟩ | ⟨rfl, hlength⟩ |
    ⟨rfl, hlength⟩ | ⟨rfl, hlength⟩
  · obtain ⟨whole, part, rfl⟩ := List.length_eq_two.1 hlength
    obtain ⟨p, rfl⟩ := hargs whole (by simp)
    obtain ⟨q, rfl⟩ := hargs part (by simp)
    exact ⟨.contains p q, rfl⟩
  · -- the name `not` is not read as a name where an operand is due
    cases hname.2 rfl
  · exact ⟨.constant .position, by rw [List.eq_nil_of_length_eq_zero hlength]; rfl⟩
  · exact ⟨.constant .last, by rw [List.eq_nil_of_length_eq_zero hlength]; rfl⟩
  · exact ⟨.constant .text, by rw [List.eq_nil_of_length_eq_zero hlength]; rfl⟩
  · exact ⟨.constant .name, by rw [List.eq_nil_of_length_eq_zero hlength]; rfl⟩

/-- One case for each rule of the grammar that builds an expression; each names the phrase whose
tree it is. -/
theorem keeps_isTree : Keeps Readable IsTree IsSteps where
  number h := by
    obtain ⟨x, hx⟩ := h.1 rfl
    cases x with
    | number n => exact ⟨.number n, congrArg Expr.number (TokenKind.number.inj hx)⟩
    | _ => cases hx
  string h := by
    obtain ⟨x, hx⟩ := h.1 rfl
    cases x with
    | string l => exact ⟨.string l, congrArg Expr.string (TokenKind.string.inj hx)⟩
    | _ => cases hx
  not := by
    rintro _ ⟨p, rfl⟩
    exact ⟨.not p, rfl⟩
  negate := by
    rintro _ ⟨p, rfl⟩
    exact ⟨.negate p, rfl⟩
  binary := by
    rintro op _ _ ⟨p, rfl⟩ ⟨q, rfl⟩
    exact ⟨.binary op p q, rfl⟩
  call := isTree_call
  relative h := by
    cases h with
    | attributeStep name => exact ⟨.attribute name, rfl⟩
    | elements head admitted predicates later =>
        exact ⟨.path (.mk none head (fun _ => admitted rfl) predicates later),
          (pathExpr_head ..).symm⟩
    | attributePath head admitted predicates later next name =>
        refine
          ⟨.attributePath (.mk none head (fun _ => admitted rfl) predicates later) next name, ?_⟩
        rw [List.append_assoc, pathExpr_head, ← List.append_assoc]
        rfl
  absolute h := by
    cases h with
    | attributeStep name => exact ⟨.rootAttribute _ name, rfl⟩
    | elements head _ predicates later =>
        exact ⟨.path (.mk (some _) head (nomatch ·) predicates later), rfl⟩
    | attributePath head _ predicates later next name =>
        exact ⟨.attributePath (.mk (some _) head (nomatch ·) predicates later) next name, rfl⟩
  union h := by
    obtain ⟨qs, hqs⟩ := exists_pathPhrases h
    match qs, hqs with
    | first :: second :: others, hqs => exact ⟨.union first second others, congrArg Expr.union hqs⟩
  lastStep {due separator before axis test predicates} hhead hattribute hpredicates := by
    obtain ⟨name, htest, hsteps⟩ | ⟨head, hadmitted, -, hsteps⟩ := exists_head hhead
    · rw [hattribute htest, List.map_nil, hsteps]
      exact .attributeStep name
    · obtain ⟨ps, hps⟩ := exists_predicates hpredicates
      have helements : IsSteps due separator
          (head.steps separator (Phrase.predicateTrees ps) ++ StepPhrase.steps []) :=
        .elements head hadmitted ps []
      rw [hsteps, ← hps]
      simpa [StepPhrase.steps] using helements
  step {due separator next before later axis test predicates} hhead helement hpredicates
      hlater := by
    obtain ⟨name, htest, -⟩ | ⟨head, hadmitted, -, hsteps⟩ := exists_head hhead
    · cases htest.symm.trans helement
    · obtain ⟨ps, hps⟩ := exists_predicates hpredicates
      rw [hsteps, ← hps]
      cases hlater with
      | attributeStep name =>
          have hpath : IsSteps due separator
              (head.steps separator (Phrase.predicateTrees ps) ++ StepPhrase.steps [] ++
                attributeSteps next name) :=
            .attributePath head hadmitted ps [] next name
          simpa [StepPhrase.steps] using hpath
      | elements head' _ predicates' later' =>
          exact .elements head hadmitted ps (.mk next head' predicates' :: later')
      | attributePath head' _ predicates' later' last name =>
          have hpath : IsSteps due separator (head.steps separator (Phrase.predicateTrees ps) ++
              StepPhrase.steps (.mk next head' predicates' :: later') ++
                attributeSteps last name) :=
            .attributePath head hadmitted ps (.mk next head' predicates' :: later') last name
          simpa [StepPhrase.steps] using hpath

/-- Every expression that is read from a text is what a phrase stands for. -/
theorem exists_phrase_of_ofText {limit : Nat} {source : String} {e : Expr}
    (h : Expr.ofText limit source = .ok e) : ∃ p : Phrase, p.tree = e := by
  simp only [Expr.ofText] at h
  cases hts : tokens source.toList with
  | error fault =>
      rw [hts] at h
      cases h
  | ok ts =>
      rw [hts] at h
      exact keeps_isTree.ofTokens (admits_of_tokens hts) h

end MarkupPath.Query
