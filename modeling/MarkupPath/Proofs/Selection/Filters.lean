import MarkupPath.Proofs.Evaluation.Thresholds
import MarkupPath.Proofs.Selection.Narrowing

/-!
# Filters in a chain

The filters compare an attribute, the first child element of a name or the own text of each member
with a literal (`MemberFilter`). What a filter decides about a member depends on the document alone,
not on the roots, nor on the other members and their number (`MemberFilter.apply_eq`). So a chain of
filters keeps the members that pass all of them, in the order of the set (`exists_applyAll`), and
filters may be applied in any order and repeated (`filters_commute`).
-/

set_option autoImplicit false

namespace MarkupPath.Selection

open MarkupPath.Evaluation MarkupPath.Query MarkupPath.Tree Visiting

/-! ## Comparisons -/

/-- What a filter looks at. -/
inductive Subject where
  | attributeValue (name : String)
  | childText (name : String)
  | ownText
  deriving DecidableEq, Repr

namespace Subject

/-- The expression for it. -/
def expr : Subject → Expr
  | .attributeValue name => .attribute (.name name)
  | .childText name => .path ⟨false, [⟨.child, .element (.name name), []⟩]⟩
  | .ownText => .call "text" []

/-- The text that is compared at a node: the value of the first attribute that the name test admits,
the text of the first child element that it admits, or the text of the node itself. -/
def text? (doc : Document) (id : NodeId) : Subject → Option String
  | .attributeValue name => (firstAttribute? (.name name) (doc.attributes id)).map (·.value)
  | .childText name =>
      ((doc.children id).find? (passes doc (.element (.name name)))).map fun child =>
        (doc.text? child).getD ""
  | .ownText => some ((doc.text? id).getD "")

end Subject

/-- The comparison of a subject with a literal. -/
structure Comparison where
  subject : Subject
  op : CompareOp
  operand : Operand
  deriving Repr

namespace Comparison

/-- The literal as an expression. -/
def literal (c : Comparison) : Expr :=
  match c.operand with
  | .number x => .number x
  | .text value => .string value

/-- The comparison as an expression. -/
def predicate (c : Comparison) : Expr := .binary (.compare c.op) c.subject.expr c.literal

/-- The comparison holds at a node. A node without the subject fails every comparison. -/
def holds (doc : Document) (c : Comparison) (id : NodeId) : Bool :=
  (c.subject.text? doc id).any fun text => compareOperands c.op (.text text) c.operand

end Comparison

/-! ## What a comparison looks at -/

section

variable {env : Setting}

theorem yields_visit (hlimit : env.limit = none) (count : Nat) : Yields (visit env count) () :=
  (gives_visit (fun most hmost => by rw [hlimit] at hmost; cases hmost) count).mono fun _ _ => rfl

/-- Without predicates all candidates are kept. -/
theorem yields_keep_all (env : Setting) (size position : Nat) (ids : List NodeId) :
    Yields (keep (fun ctx => holdAll env [] ctx) size position ids) ids := by
  have htest : ∀ ctx : Context, ctx.node ∈ ids →
      Yields (holdAll env [] ctx) ((fun _ => true) ctx) := fun _ _ => yields_holdAll_nil
  have hkeep : Yields (keep (fun ctx => holdAll env [] ctx) size position ids)
      (((places size position ids).filter fun _ => true).map Context.node) :=
    yields_keep htest position
  rwa [List.filter_true, map_node_places] at hkeep

theorem merge_singleton (env : Setting) (group : List NodeId) : merge env [group] = group := by
  have hfew : ¬ ([group].filter fun group => !group.isEmpty).length > 1 :=
    Nat.not_lt.2 (List.length_filter_le _ [group])
  rw [merge, if_neg hfew, List.flatten_singleton]

/-- A step to the children of a node selects those that its test admits. -/
theorem yields_children (hlimit : env.limit = none) (test : NodeTest) (id : NodeId) :
    Yields (evalStep env ⟨.child, test, []⟩ [.node id])
      ((env.doc.children id).filter (passes env.doc test)) := by
  -- the axis has taken the markers out, which pass no test anyway
  have hpasses : ((env.doc.children id).filter env.doc.isElement).filter (passes env.doc test) =
      (env.doc.children id).filter (passes env.doc test) := by
    rw [List.filter_filter]
    refine List.filter_congr fun child _ => ?_
    rw [Bool.and_eq_left_iff_imp]
    exact isElement_of_passes
  have hcandidates : Yields (candidates env .child test (.node id))
      ((env.doc.children id).filter (passes env.doc test)) := by
    rw [candidates, ← hpasses]
    exact (yields_visit hlimit _).bind (.pure _)
  have hgroup : Yields (do
      let found ← candidates env .child test (.node id)
      keep (fun ctx => holdAll env [] ctx) found.length 1 found)
      ((env.doc.children id).filter (passes env.doc test)) :=
    hcandidates.bind (yields_keep_all env _ 1 _)
  rw [evalStep, List.mapM_cons, List.mapM_nil]
  refine Yields.bind (a := [(env.doc.children id).filter (passes env.doc test)]) ?_ ?_
  · exact hgroup.bind (Visiting.Yields.bind (.pure []) (.pure _))
  · rw [merge_singleton]
    exact .pure _

/-- The subject has a value at every node, and the first text of this value depends on the document
and the node alone. -/
theorem Subject.exists_value (hlimit : env.limit = none) (subject : Subject) (ctx : Context) :
    ∃ value, Yields (eval env subject.expr ctx) value ∧
      value.first? env.doc = subject.text? env.doc ctx.node ∧ value.kind ≠ .number ∧
      value.kind ≠ .boolean := by
  cases subject with
  | attributeValue name =>
    refine ⟨.attributes (attributeValues env.doc (.name name) [ctx.node]), ?_,
      head?_attributeValues env.doc (.name name) ctx.node, by simp [Value.kind],
      by simp [Value.kind]⟩
    rw [Subject.expr, eval]
    exact .pure _
  | childText name =>
    refine ⟨.nodes ((env.doc.children ctx.node).filter (passes env.doc (.element (.name name)))),
      ?_, ?_, by simp [Value.kind], by simp [Value.kind]⟩
    · rw [Subject.expr, eval, evalPath, if_neg Bool.false_ne_true, evalSteps]
      refine (yields_children hlimit _ _).bind ?_
      rw [evalSteps, filterMap_node?]
      exact .pure _
    · rw [Value.first?, List.head?_filter, Subject.text?]
  | ownText =>
    -- a node without a text counts as one with an empty text
    refine ⟨.string ((env.doc.text? ctx.node).getD ""), ?_, rfl, by simp [Value.kind],
      by simp [Value.kind]⟩
    rw [Subject.expr, eval, evalArgs]
    exact Visiting.Yields.bind (.pure _) (.pure _)

/-- As a predicate a comparison is decided by the node alone. -/
theorem Comparison.yields_holdAll (hlimit : env.limit = none) (c : Comparison) (ctx : Context) :
    Yields (holdAll env [c.predicate] ctx) (c.holds env.doc ctx.node) := by
  obtain ⟨subject, hsubject, htext, hnumber, hboolean⟩ := c.subject.exists_value hlimit ctx
  obtain ⟨literal, hliteral, hoperand⟩ : ∃ literal,
      Yields (eval env c.literal ctx) literal ∧ IsLiteral literal c.operand := by
    rw [Comparison.literal]
    cases c.operand with
    | number x => exact ⟨.number x, by rw [eval]; exact .pure _, .number x⟩
    | text value => exact ⟨.string value, by rw [eval]; exact .pure _, .text value⟩
  have hvalue : Yields (eval env c.predicate ctx) (.boolean (c.holds env.doc ctx.node)) := by
    rw [Comparison.holds, ← htext,
      ← compareValues_literal env.doc c.op hnumber hboolean hoperand, Comparison.predicate, eval]
    exact hsubject.bind (hliteral.bind (.pure _))
  have hholds := yields_holdAll_cons hvalue yields_holdAll_nil
  rwa [Bool.and_true] at hholds

end

/-! ## Sets of a document -/

namespace ResultSet

/-- The roots and the members of the set are nodes of the document. -/
structure Known (doc : Document) (s : ResultSet) : Prop where
  roots : ∀ r ∈ s.roots, r < doc.size
  members : ∀ id ∈ s.ids, id < doc.size

variable {doc : Document} {s t : ResultSet}

/-- What an evaluation selects is known to its document. -/
theorem known_of_ofExpression (hdoc : doc.WellFormed) {roots : List NodeId} {e : Expression}
    (he : Parsed e.tree) (h : ofExpression doc roots e = .ok s) : s.Known doc := by
  obtain ⟨ids, hids, hs⟩ := exists_of_bind_eq_ok h
  cases hs
  obtain ⟨value, hvalue, hok⟩ := exists_of_bind_eq_ok hids
  cases value with
  | nodes found =>
    cases hok
    obtain ⟨⟨first, hfirst⟩, hknown⟩ := known_of_evaluateValue hvalue
    have hroots : roots ≠ [] := by
      rintro rfl
      cases hfirst
    exact ⟨hknown, known_of_sublist hdoc hknown
      (sublist_elementsAround hdoc hroots hknown he hvalue)⟩
  | _ => cases hok

theorem known_of_select (hdoc : doc.WellFormed) {roots : List NodeId} {source : String}
    (h : select doc roots source = .ok s) : s.Known doc := by
  obtain ⟨e, he, hs⟩ := exists_of_bind_eq_ok h
  cases hset : ofExpression doc roots e with
  | error fault =>
    rw [hset] at hs
    cases hs
  | ok found =>
    rw [hset] at hs
    cases hs
    exact known_of_ofExpression hdoc (parsed_of_compile he) hset

/-- What is found from a known set is known. -/
theorem Known.find (h : s.Known doc) (hdoc : doc.WellFormed) {source : String}
    (ht : s.find doc source = .ok t) : t.Known doc := by
  rw [ResultSet.find] at ht
  split at ht
  · cases he : compile source with
    | error fault =>
      rw [he] at ht
      cases ht
    | ok e =>
      -- an empty set is not searched, and it keeps its roots
      rw [he] at ht
      cases ht
      exact ⟨h.roots, List.forall_mem_nil _⟩
  · exact known_of_select hdoc ht

/-- Narrowing by a predicate that looks at the nodes alone filters the members. -/
theorem narrow_eq (hs : s.Known doc) {predicate : Expr} {verdict : NodeId → Bool}
    (hpredicate : ∀ ctx : Context, ctx.node ∈ s.ids →
      Yields (holdAll (Setting.of doc s.roots none) [predicate] ctx) (verdict ctx.node)) :
    s.narrow doc predicate =
      .ok ⟨s.ids.filter verdict, s.roots, Expression.ofTree predicate⟩ := by
  rw [ResultSet.narrow]
  by_cases hempty : s.ids = []
  · -- from no members the predicate is not evaluated at all
    rw [hempty]
    rfl
  · rw [if_neg (by simpa using hempty), filterNodes_eq hs.roots hs.members hpredicate,
      map_node_filter_places]
    rfl

end ResultSet

/-! ## Filters -/

/-- A filter of a result set. -/
inductive MemberFilter where
  | attributeEq (name value : String)
  | attributeNe (name value : String)
  | attributeGt (name : String) (threshold : Float)
  | attributeLt (name : String) (threshold : Float)
  | childEq (child value : String)
  | textEq (value : String)
  deriving Repr

namespace MemberFilter

/-- The members that the filter keeps. -/
def apply (doc : Document) (s : ResultSet) : MemberFilter → Except EvaluationError ResultSet
  | .attributeEq name value => s.whereAttributeEq doc name value
  | .attributeNe name value => s.whereAttributeNe doc name value
  | .attributeGt name threshold => s.whereAttributeGt doc name threshold
  | .attributeLt name threshold => s.whereAttributeLt doc name threshold
  | .childEq child value => s.whereChildEq doc child value
  | .textEq value => s.whereTextEq doc value

/-- The filters one after the other. -/
def applyAll (doc : Document) (s : ResultSet) (filters : List MemberFilter) :
    Except EvaluationError ResultSet :=
  filters.foldlM (fun s f => f.apply doc s) s

/-- What the filter compares. -/
def comparison : MemberFilter → Comparison
  | .attributeEq name value => ⟨.attributeValue name, .equal, .text value⟩
  | .attributeNe name value => ⟨.attributeValue name, .notEqual, .text value⟩
  | .attributeGt name threshold => ⟨.attributeValue name, .greater, .number threshold⟩
  | .attributeLt name threshold => ⟨.attributeValue name, .less, .number threshold⟩
  | .childEq child value => ⟨.childText child, .equal, .text value⟩
  | .textEq value => ⟨.ownText, .equal, .text value⟩

/-- The members at which the comparison of the filter holds, over the same roots. -/
def kept (doc : Document) (s : ResultSet) (f : MemberFilter) : ResultSet :=
  ⟨s.ids.filter (f.comparison.holds doc), s.roots, Expression.ofTree f.comparison.predicate⟩

variable {doc : Document} {s : ResultSet}

theorem known_kept (hs : s.Known doc) (f : MemberFilter) : (f.kept doc s).Known doc :=
  ⟨hs.roots, fun id hid => hs.members id (List.mem_of_mem_filter hid)⟩

theorem kept_kept (f : MemberFilter) : f.kept doc (f.kept doc s) = f.kept doc s := by
  rw [kept, kept, List.filter_filter]
  simp only [Bool.and_self]

/-- Every filter narrows by its comparison. -/
theorem apply_eq_narrow (doc : Document) (s : ResultSet) (f : MemberFilter) :
    f.apply doc s = s.narrow doc f.comparison.predicate := by
  cases f <;> rfl

/-- A filter never fails, and what it decides about a member does not depend on the others. -/
theorem apply_eq (hs : s.Known doc) (f : MemberFilter) :
    f.apply doc s = .ok (f.kept doc s) := by
  rw [apply_eq_narrow]
  exact ResultSet.narrow_eq hs fun ctx _ => f.comparison.yields_holdAll rfl ctx

/-- A chain of filters keeps the members that pass all of them. -/
theorem exists_applyAll (hs : s.Known doc) (filters : List MemberFilter) :
    ∃ t, applyAll doc s filters = .ok t ∧
      t.ids = s.ids.filter (fun id => filters.all fun f => f.comparison.holds doc id) ∧
      t.roots = s.roots := by
  induction filters generalizing s with
  | nil => exact ⟨s, rfl, (List.filter_true _).symm, rfl⟩
  | cons f rest ih =>
    -- what the first filter keeps is known again, so the others apply to it
    obtain ⟨t, ht, hids, hroots⟩ := ih (known_kept hs f)
    refine ⟨t, ?_, ?_, hroots⟩
    · rw [applyAll, List.foldlM_cons, apply_eq hs]
      exact ht
    · rw [hids, kept, List.filter_filter]
      simp only [List.all_cons, Bool.and_comm]

/-- Only the filters that a chain is made of matter, not their order or number. -/
theorem exists_applyAll_of_mem_iff (hs : s.Known doc) {filters filters' : List MemberFilter}
    (hsame : ∀ f, f ∈ filters ↔ f ∈ filters') :
    ∃ t t', applyAll doc s filters = .ok t ∧ applyAll doc s filters' = .ok t' ∧
      t.ids = t'.ids := by
  obtain ⟨t, ht, hids, -⟩ := exists_applyAll hs filters
  obtain ⟨t', ht', hids', -⟩ := exists_applyAll hs filters'
  refine ⟨t, t', ht, ht', ?_⟩
  rw [hids, hids']
  refine List.filter_congr fun id _ => ?_
  rw [Bool.eq_iff_iff, List.all_eq_true, List.all_eq_true]
  simp only [hsame]

end MemberFilter

/-- Filters commute and are idempotent: two filters in either order keep the members that each of
them keeps of the whole set, in the order of the set; a filter applied again to what it has kept
changes nothing; and the roots stay. No filter fails. -/
theorem filters_commute {doc : Document} {s : ResultSet} (hs : s.Known doc) (f g : MemberFilter) :
    ∃ sf sg fg gf, f.apply doc s = .ok sf ∧ g.apply doc s = .ok sg ∧
      g.apply doc sf = .ok fg ∧ f.apply doc sg = .ok gf ∧
      fg.ids = gf.ids ∧ fg.ids = s.ids.filter (fun id => id ∈ sf.ids ∧ id ∈ sg.ids) ∧
      f.apply doc sf = .ok sf ∧ ∀ t ∈ [sf, sg, fg, gf], t.roots = s.roots := by
  -- the verdicts do not depend on the set, so both orders conjoin the same two
  have hboth : (g.kept doc (f.kept doc s)).ids = s.ids.filter fun id =>
      f.comparison.holds doc id && g.comparison.holds doc id := by
    simp only [MemberFilter.kept, List.filter_filter, Bool.and_comm]
  have hagain := f.apply_eq (f.known_kept hs)
  rw [MemberFilter.kept_kept] at hagain
  refine ⟨f.kept doc s, g.kept doc s, g.kept doc (f.kept doc s), f.kept doc (g.kept doc s),
    f.apply_eq hs, g.apply_eq hs, g.apply_eq (f.known_kept hs), f.apply_eq (g.known_kept hs),
    ?_, ?_, hagain, ?_⟩
  · rw [hboth, MemberFilter.kept, MemberFilter.kept, List.filter_filter]
  · rw [hboth]
    refine List.filter_congr fun id hid => ?_
    simp [MemberFilter.kept, hid]
  · simp [MemberFilter.kept]

/-- Of four elements a threshold keeps two and another value keeps two; both keep one. -/
theorem filters_commute_measured :
    let s : ResultSet := ⟨[1, 2, 3, 4], [0],
      ⟨"a", .path ⟨false, [⟨.child, .element (.name "a"), []⟩]⟩⟩⟩
    let above : MemberFilter := .attributeGt "n" 8.5
    let other : MemberFilter := .attributeNe "n" "12"
    ResultSet.select measured [0] "a" = .ok s ∧ s.Known measured ∧
      ∃ sf sg fg gf, above.apply measured s = .ok sf ∧ other.apply measured s = .ok sg ∧
        other.apply measured sf = .ok fg ∧ above.apply measured sg = .ok gf ∧
        sf.ids = [1, 4] ∧ sg.ids = [1, 2] ∧ fg.ids = gf.ids ∧ fg.ids = [1] ∧
        above.apply measured sf = .ok sf ∧ ∀ t ∈ [sf, sg, fg, gf], t.roots = [0] := by
  intro s above other
  have hselect : ResultSet.select measured [0] "a" = .ok s := by cbv
  have hs : s.Known measured :=
    ResultSet.known_of_select reachable_measured.wellFormed hselect
  obtain ⟨sf, sg, fg, gf, hf, hg, hfg, hgf, hsame, hboth, hagain, hroots⟩ :=
    filters_commute hs above other
  have habove : (above.apply measured s).map ResultSet.ids = .ok [1, 4] := by decide +kernel
  have hother : (other.apply measured s).map ResultSet.ids = .ok [1, 2] := by decide +kernel
  rw [hf] at habove
  rw [hg] at hother
  have hsf : sf.ids = [1, 4] := Except.ok.inj habove
  have hsg : sg.ids = [1, 2] := Except.ok.inj hother
  refine ⟨hselect, hs, sf, sg, fg, gf, hf, hg, hfg, hgf, hsf, hsg, hsame, ?_, hagain, hroots⟩
  rw [hboth, hsf, hsg]
  decide

end MarkupPath.Selection
