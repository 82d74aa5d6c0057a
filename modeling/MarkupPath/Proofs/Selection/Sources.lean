import MarkupPath.Proofs.Query.Rendering
import MarkupPath.Proofs.Selection.Filters

/-!
# Sources of filters

A filter builds its comparison as a tree from the strings of its caller, and the set that it gives
reports the text of this tree as its source. A string is written in the quotation marks that it does
not hold, so the text is read as the comparison again if the string lacks one of the two marks
(`Comparison.compile_text`), and never if it holds both: no text at all compiles to such a
comparison (`Comparison.exists_literal_of_compile`). `source_of_filter` puts both together.

A string with both marks ends its own literal, and what stands behind that mark is read as further
syntax: `compile_endedLiteral` shows a comparison whose source is a disjunction.
-/

set_option autoImplicit false

namespace MarkupPath.Query

/-! ## Names and strings -/

/-- The lexer reads the whole text as one name. -/
def IsName (name : String) : Prop :=
  (tokens name.toList).map (List.map Token.kind) = .ok [.name name, .stop]

/-- What is read as a name by itself is a name, and not the operator `not`. -/
theorem IsName.exists_word {name : String} (h : IsName name) :
    ∃ w : Word, w.text = name ∧ w.chars ≠ Symbol.not.spelling.toList := by
  rw [IsName] at h
  cases hts : tokens name.toList with
  | error fault =>
    rw [hts] at h
    cases h
  | ok ts =>
    rw [hts] at h
    have hreadable := admits_of_tokens hts
    rw [Except.ok.inj h] at hreadable
    obtain ⟨w, hw, hnot⟩ := Query.exists_word hreadable.1
    exact ⟨w, hw, hnot rfl⟩

/-- A string can be written as a literal unless it holds both quotation marks. -/
theorem exists_literal_iff {value : String} :
    (∃ l : Literal, l.text = value) ↔ ¬ ('"' ∈ value.toList ∧ '\'' ∈ value.toList) := by
  constructor
  · rintro ⟨l, rfl⟩ ⟨hdouble, hsingle⟩
    rw [Literal.text, String.toList_ofList] at hdouble hsingle
    rcases l.isQuote with hmark | hmark
    · exact l.absent (hmark ▸ hdouble)
    · exact l.absent (hmark ▸ hsingle)
  · intro h
    by_cases hdouble : '"' ∈ value.toList
    · have hsingle : '\'' ∉ value.toList := fun hsingle => h ⟨hdouble, hsingle⟩
      exact ⟨⟨'\'', value.toList, .inr rfl, hsingle⟩, String.ofList_toList⟩
    · exact ⟨⟨'"', value.toList, .inl rfl, hdouble⟩, String.ofList_toList⟩

/-- A phrase for a string is a literal. -/
theorem Phrase.exists_literal_of_same {p : Phrase} {value : String}
    (h : p.tree.same (.string value) = true) : ∃ l : Literal, l.text = value := by
  cases p with
  | string l => exact ⟨l, by simpa [Phrase.tree, Expr.same] using h⟩
  | _ => simp [Phrase.tree, Expr.same] at h

/-- A phrase for an operator has a phrase for its right operand. -/
theorem Phrase.exists_right_of_same {p : Phrase} {op : BinaryOp} {left right : Expr}
    (h : p.tree.same (.binary op left right) = true) :
    ∃ q : Phrase, q.tree.same right = true := by
  cases p with
  | binary op' left' right' =>
    simp only [Phrase.tree, Expr.same, Bool.and_eq_true] at h
    exact ⟨right', h.2⟩
  | _ => simp [Phrase.tree, Expr.same] at h

end MarkupPath.Query

namespace MarkupPath.Selection

open MarkupPath.Evaluation MarkupPath.Query MarkupPath.Tree

/-! ## Comparisons with a string -/

/-- The subject, if it is looked up by a name, is so by one that the lexer reads. -/
inductive Subject.Named : Subject → Prop where
  | attributeValue {name : String} : IsName name → Named (.attributeValue name)
  | childText {name : String} : IsName name → Named (.childText name)
  | ownText : Named .ownText

/-- The text of a subject is read as the subject again, as tightly bound as an operand can be. -/
theorem Subject.Named.exists_shows {subject : Subject} (h : subject.Named) :
    ∃ xs, subject.expr.Shows xs subject.expr ∧ subject.expr.textPower = negationPower ∧
      subject.expr.levels = 1 := by
  cases h with
  | attributeValue hname =>
    obtain ⟨w, rfl, -⟩ := hname.exists_word
    exact ⟨_, .attributeTest (.named w), rfl, rfl⟩
  | childText hname =>
    obtain ⟨w, rfl, hnot⟩ := hname.exists_word
    have hexplicit : (Head.element (.named w)).Explicit .slash := trivial
    have hfirst : (Head.element (.named w)).isNot = false := by simpa [Head.isNot] using hnot
    exact ⟨_, ShowsPredicates.nil.relativePath .nil hexplicit hfirst, rfl, rfl⟩
  | ownText => exact ⟨_, .constant .text, rfl, rfl⟩

namespace Comparison

variable {subject : Subject} {op : CompareOp} {value : String}

/-- Without both quotation marks in the string, the text of the comparison compiles to it. -/
theorem compile_text (hsubject : subject.Named)
    (hvalue : ¬ ('"' ∈ value.toList ∧ '\'' ∈ value.toList)) :
    Expression.compile defaultDepth (predicate ⟨subject, op, .text value⟩).text =
      .ok (Expression.ofTree (predicate ⟨subject, op, .text value⟩)) := by
  obtain ⟨xs, hshows, hpower, hlevels⟩ := hsubject.exists_shows
  obtain ⟨l, rfl⟩ := exists_literal_iff.2 hvalue
  obtain ⟨l', hchars, htext⟩ := l.exists_quoted
  have hliteral := Expr.Shows.string hchars htext
  rw [htext] at hliteral
  have hop := (power_bounds (.compare op)).2
  obtain ⟨zs, hpredicate⟩ := hshows.binary hliteral
    (by rw [hpower]; exact Nat.le_of_lt hop) hop
  -- one operand on each side of the operator is well below the limit
  have htree : Expr.ofText defaultDepth _ = .ok _ :=
    hpredicate.ofText (by simp [Expr.levels, hlevels]; decide)
  rw [Expression.compile, predicate, literal]
  exact congrArg (· >>= _) htree

/-- Whatever compiles to a comparison with a string writes that string as a literal. -/
theorem exists_literal_of_compile {limit : Nat} {source : String} {e : Expression}
    (h : Expression.compile limit source = .ok e)
    (hsame : e.tree.same (predicate ⟨subject, op, .text value⟩) = true) :
    ∃ l : Literal, l.text = value := by
  cases htree : Expr.ofText limit source with
  | error fault =>
    rw [Expression.compile, htree] at h
    cases h
  | ok tree =>
    rw [Expression.compile, htree] at h
    cases h
    obtain ⟨p, rfl⟩ := exists_phrase_of_ofText htree
    obtain ⟨q, hq⟩ := p.exists_right_of_same hsame
    exact q.exists_literal_of_same hq

end Comparison

/-! ## Filters -/

/-- The filter compares with the string, and the name that it looks up, if any, is one that the
lexer reads. -/
inductive MemberFilter.ComparesText : MemberFilter → String → Prop where
  | attributeEq {name value : String} : IsName name → ComparesText (.attributeEq name value) value
  | attributeNe {name value : String} : IsName name → ComparesText (.attributeNe name value) value
  | childEq {name value : String} : IsName name → ComparesText (.childEq name value) value
  | textEq {value : String} : ComparesText (.textEq value) value

theorem MemberFilter.ComparesText.exists_comparison {f : MemberFilter} {value : String}
    (h : f.ComparesText value) :
    ∃ subject op, subject.Named ∧ f.comparison = ⟨subject, op, .text value⟩ := by
  cases h with
  | attributeEq hname => exact ⟨_, _, .attributeValue hname, rfl⟩
  | attributeNe hname => exact ⟨_, _, .attributeValue hname, rfl⟩
  | childEq hname => exact ⟨_, _, .childText hname, rfl⟩
  | textEq => exact ⟨_, _, .ownText, rfl⟩

/-- Every set that narrowing gives reports the predicate and its text. -/
theorem ResultSet.expression_of_narrow {doc : Document} {s t : ResultSet} {predicate : Expr}
    (h : s.narrow doc predicate = .ok t) : t.expression = Expression.ofTree predicate := by
  rw [ResultSet.narrow] at h
  split at h
  · cases h
    rfl
  · cases hids : filterNodes doc s.roots s.ids predicate with
    | error fault =>
      rw [hids] at h
      cases h
    | ok ids =>
      rw [hids] at h
      cases h
      rfl

/-- A filter that compares with a string gives a set of every set of the document, and whatever set
it gives reports as its expression the comparison that was applied. The source of this expression
compiles, with the default limit, to the same expression, unless the string holds both quotation
marks; then no text compiles to it. -/
theorem source_of_filter {f : MemberFilter} {value : String} (hf : f.ComparesText value)
    (doc : Document) (s : ResultSet) :
    (s.Known doc → ∃ t, f.apply doc s = .ok t) ∧
      ∀ t, f.apply doc s = .ok t →
        t.expression.tree = f.comparison.predicate ∧
        (¬ ('"' ∈ value.toList ∧ '\'' ∈ value.toList) →
          Expression.compile defaultDepth t.expression.source = .ok t.expression) ∧
        ('"' ∈ value.toList ∧ '\'' ∈ value.toList → ∀ limit source e,
          Expression.compile limit source = .ok e → e.tree.same t.expression.tree = false) := by
  refine ⟨fun hs => ⟨_, f.apply_eq hs⟩, fun t ht => ?_⟩
  rw [MemberFilter.apply_eq_narrow] at ht
  rw [ResultSet.expression_of_narrow ht]
  obtain ⟨subject, op, hsubject, hcomparison⟩ := hf.exists_comparison
  rw [hcomparison]
  refine ⟨rfl, Comparison.compile_text hsubject, fun hboth limit source e he => ?_⟩
  rw [Bool.eq_false_iff]
  intro hsame
  exact exists_literal_iff.1 (Comparison.exists_literal_of_compile he hsame) hboth

/-- Two of the measured elements. -/
def measuredPair : ResultSet :=
  ⟨[1, 2], [0], Expression.ofTree
    (.path ⟨false, [⟨.child, .element (.name "a"), [.attribute (.name "n")]⟩]⟩)⟩

theorem known_measuredPair : measuredPair.Known measured :=
  ⟨by decide +kernel, by decide +kernel⟩

/-- A string with an apostrophe, compared with the text of a child whose name is the word of an
operator. -/
theorem source_of_filter_operatorName :
    let f : MemberFilter := .childEq "div" "it's"
    f.ComparesText "it's" ∧ ∃ t, f.apply measured measuredPair = .ok t ∧
      t.expression.tree = f.comparison.predicate ∧ t.expression.source = "div = \"it's\"" ∧
      Expression.compile defaultDepth "div = \"it's\"" = .ok t.expression := by
  intro f
  have hf : f.ComparesText "it's" := .childEq (by cbv)
  obtain ⟨hexists, hsource⟩ := source_of_filter hf measured measuredPair
  obtain ⟨t, ht⟩ := hexists known_measuredPair
  obtain ⟨htree, hcompile, -⟩ := hsource t ht
  have htext : t.expression.source = "div = \"it's\"" := by
    rw [MemberFilter.apply_eq_narrow] at ht
    rw [ResultSet.expression_of_narrow ht]
    rfl
  exact ⟨hf, t, ht, htree, htext, htext ▸ hcompile (by decide)⟩

/-- A double quotation mark ends the literal of a string that holds a single one, and the rest of
the string is read as a second comparison. -/
theorem compile_endedLiteral :
    (MemberFilter.attributeEq "a" "'\" or @b = \"").comparison.predicate.text =
        "@a = \"'\" or @b = \"\"" ∧
      Expression.compile defaultDepth "@a = \"'\" or @b = \"\"" =
        .ok ⟨"@a = \"'\" or @b = \"\"", .binary .or
          (MemberFilter.attributeEq "a" "'").comparison.predicate
          (MemberFilter.attributeEq "b" "").comparison.predicate⟩ :=
  ⟨by cbv, by cbv⟩

/-- The source of a filter by a string with both quotation marks is that of another expression. -/
theorem not_compile_source_of_filter :
    ¬ ∀ (f : MemberFilter) (value : String), f.ComparesText value → ∀ doc s t,
      f.apply doc s = .ok t → ∃ e, Expression.compile defaultDepth t.expression.source = .ok e ∧
        e.tree.same t.expression.tree = true := by
  intro h
  obtain ⟨htext, hcompile⟩ := compile_endedLiteral
  have hf : (MemberFilter.attributeEq "a" "'\" or @b = \"").ComparesText "'\" or @b = \"" :=
    .attributeEq (by cbv)
  obtain ⟨e, he, hsame⟩ := h _ _ hf _ _ _ (MemberFilter.apply_eq known_measuredPair _)
  rw [MemberFilter.kept, Expression.ofTree, htext, hcompile] at he
  cases he
  simp [MemberFilter.kept, Expression.ofTree, MemberFilter.comparison, Comparison.predicate,
    Expr.same] at hsame

end MarkupPath.Selection
