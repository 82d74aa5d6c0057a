import MarkupPath.Proofs.Evaluation.Predicates

/-!
# Thresholds on attributes

A comparison of an attribute with a literal looks at the first attribute that the name test admits
(`compareValues_attributes`). Where the verdict of further predicates at the last step of a path
looks at the nodes alone, the path with them selects a filter of what it selects without them, or
comes to the same fault (`evaluate_furtherPath_eq_filter`). So an order between an attribute and a
number selects the nodes whose first attribute starts with a number in that order
(`evaluate_threshold`).
-/

set_option autoImplicit false

namespace MarkupPath.Evaluation

open MarkupPath.Query MarkupPath.Tree Visiting
open MarkupPath.Markup (Attribute)

/-! ## The first attribute of a test -/

/-- The first attribute that a name test admits, by its local or its whole name. -/
def firstAttribute? (test : NameTest) (attributes : List Attribute) : Option Attribute :=
  attributes.find? fun a => test.admits (attributeLocalPart a.name) a.name

theorem head?_attributeValues (doc : Document) (test : NameTest) (id : NodeId) :
    (attributeValues doc test [id]).head? =
      (firstAttribute? test (doc.attributes id)).map (·.value) := by
  rw [attributeValues, List.flatMap_singleton, List.head?_map, List.head?_filter, firstAttribute?]

/-- What a literal is compared as. -/
inductive IsLiteral : Value → Operand → Prop where
  | number (x : Float) : IsLiteral (.number x) (.number x)
  | text (value : String) : IsLiteral (.string value) (.text value)

/-- A set or a text is compared with a literal by its first member. -/
theorem compareValues_literal (doc : Document) (op : CompareOp) {subject literal : Value}
    {operand : Operand} (hnumber : subject.kind ≠ .number) (hboolean : subject.kind ≠ .boolean)
    (hliteral : IsLiteral literal operand) :
    compareValues doc op subject literal =
      (subject.first? doc).any fun text => compareOperands op (.text text) operand := by
  have hoperand : Operand.of? doc subject = (subject.first? doc).map .text := by
    cases subject with
    | number x => exact absurd rfl hnumber
    | _ => rfl
  have hliteral' : Operand.of? doc literal = some operand := by cases hliteral <;> rfl
  unfold compareValues
  split
  · exact absurd rfl hboolean
  · cases hliteral
  · rw [hoperand, hliteral']
    cases subject.first? doc <;> rfl

/-- The node has an attribute that the test admits. -/
def hasAttribute (doc : Document) (test : NameTest) (id : NodeId) : Bool :=
  (firstAttribute? test (doc.attributes id)).isSome

/-- The first attribute that the test admits compares so with a literal. -/
def attributeCompares (doc : Document) (op : CompareOp) (test : NameTest) (operand : Operand)
    (id : NodeId) : Bool :=
  (firstAttribute? test (doc.attributes id)).any fun a =>
    compareOperands op (.text a.value) operand

theorem hasAttribute_of_attributeCompares {doc : Document} {op : CompareOp} {test : NameTest}
    {operand : Operand} {id : NodeId} (h : attributeCompares doc op test operand id = true) :
    hasAttribute doc test id = true := by
  obtain ⟨a, ha, -⟩ := (Option.any_eq_true _ _).1 h
  rw [hasAttribute, ha, Option.isSome_some]

theorem hasAttribute_iff {doc : Document} {test : NameTest} {id : NodeId} :
    hasAttribute doc test id = true ↔
      ∃ a ∈ doc.attributes id, test.admits (attributeLocalPart a.name) a.name = true := by
  rw [hasAttribute, firstAttribute?, List.find?_isSome]

/-- An attribute is compared with a literal by the first one that the test admits. -/
theorem compareValues_attributes (doc : Document) (op : CompareOp) (test : NameTest) (id : NodeId)
    {literal : Value} {operand : Operand} (hliteral : IsLiteral literal operand) :
    compareValues doc op (.attributes (attributeValues doc test [id])) literal =
      attributeCompares doc op test operand id := by
  rw [compareValues_literal doc op (by simp [Value.kind]) (by simp [Value.kind]) hliteral,
    Value.first?, head?_attributeValues, Option.any_map]
  rfl

/-! ## Orders of numbers -/

/-- The operators that ask for an order. -/
def orderings : List CompareOp := [.less, .lessEqual, .greater, .greaterEqual]

/-- The numbers stand in the order that an operator asks for. -/
def Ordering (op : CompareOp) (x y : Float) : Prop :=
  match op with
  | .less => x < y
  | .lessEqual => x ≤ y
  | .greater => y < x
  | .greaterEqual => y ≤ x
  | _ => False

theorem compareNumbers_eq_true_iff {op : CompareOp} (hop : op ∈ orderings) {x y : Float} :
    compareNumbers op x y = true ↔ x.isNaN = false ∧ y.isNaN = false ∧ Ordering op x y := by
  unfold compareNumbers
  cases hx : x.isNaN with
  | true => simp
  | false =>
    cases hy : y.isNaN with
    | true => simp
    | false =>
      simp only [orderings, List.mem_cons, List.not_mem_nil, or_false] at hop
      rcases hop with rfl | rfl | rfl | rfl <;> simp [Ordering]

/-- A text and a number are compared by an order only if the text starts with a number. -/
theorem compareOperands_text_number {op : CompareOp} (hop : op ∈ orderings) (text : String)
    (y : Float) : compareOperands op (.text text) (.number y) =
      (Number.leading? text.toList).any fun x => compareNumbers op x y := by
  simp only [compareOperands, Operand.number?]
  cases Number.leading? text.toList with
  | some x => rfl
  | none =>
    simp only [orderings, List.mem_cons, List.not_mem_nil, or_false] at hop
    rcases hop with rfl | rfl | rfl | rfl <;> rfl

/-! ## Predicates that look at the nodes alone -/

section

variable {doc : Document} {roots : List NodeId} (hdoc : doc.WellFormed) (hroots : roots ≠ [])
  (hknown : ∀ r ∈ roots, r < doc.size)

include hdoc hroots hknown

/-- What a path selects is a part of the order of its setting. -/
theorem sublist_order_of_evaluate {p : Path Expr} (hp : p.steps ≠ []) {ids : List NodeId}
    (h : evaluate doc roots (.path p) none = .ok ids) :
    ids.Sublist (Setting.of doc roots none).order := by
  obtain ⟨first, hfirst⟩ := Option.isSome_iff_exists.1 (List.isSome_head?.2 hroots)
  have hordered := returns_evalFrom (Setting.Sound.of hdoc hknown none) (e := .path p)
    (fun q hq => by rwa [List.mem_singleton.1 hq]) first 0
  obtain ⟨value, hvalue, hok⟩ := exists_of_bind_eq_ok h
  rw [← evaluateValue_eq hfirst hknown, hvalue] at hordered
  cases value with
  | nodes found =>
    cases hok
    exact hordered ids rfl
  | _ => cases hok

/-- Further predicates whose verdict looks at the nodes alone filter what a path selects. -/
theorem evaluate_furtherPath_eq_filter (absolute : Bool) (before : List (Step Expr))
    {last : Step Expr} (hlast : last.test.isAttribute = false) {further : List Expr}
    {verdict : NodeId → Bool}
    (hfurther : Decides (Setting.of doc roots none) further fun ctx => verdict ctx.node) :
    evaluate doc roots (.path (furtherPath absolute before last further)) none =
      (evaluate doc roots (.path ⟨absolute, before ++ [last]⟩) none).map
        fun ids => ids.filter verdict := by
  have henv := Setting.Sound.of hdoc hknown none
  obtain ⟨result, hselect⟩ := exists_survivors hdoc hroots hknown absolute before hlast
  have hplain := hselect [] _ (decides_of_truthValued (List.forall_mem_nil _))
  rw [furtherPath, furtherStep, List.append_nil] at hplain
  have hmore := hselect further _ hfurther
  rw [hplain, hmore]
  cases result with
  | error e => rfl
  | ok groups =>
    -- both are parts of the order, so it is enough that they have the same members
    have hall := sublist_order_of_evaluate hdoc hroots hknown (by simp) hplain
    have hsome := sublist_order_of_evaluate hdoc hroots hknown (by simp [furtherPath]) hmore
    refine congrArg Except.ok (eq_of_sublist henv.nodup_order hsome
      (List.filter_sublist.trans hall) fun id => ?_)
    simp only [List.mem_filter, mem_merge_chosen]
    constructor
    · rintro ⟨group, hgroup, ctx, hctx, hverdict, rfl⟩
      exact ⟨⟨group, hgroup, ctx, hctx, rfl, rfl⟩, hverdict⟩
    · rintro ⟨⟨group, hgroup, ctx, hctx, -, rfl⟩, hverdict⟩
      exact ⟨group, hgroup, ctx, hctx, hverdict, rfl⟩

end

/-! ## Thresholds -/

section

variable {doc : Document} {roots : List NodeId} {test : NameTest} {op : CompareOp}

/-- The test of an attribute holds at the nodes that have one which it admits. -/
theorem decides_attribute (env : Setting) (test : NameTest) :
    Decides env [.attribute test] fun ctx => hasAttribute env.doc test ctx.node := by
  intro ctx _
  have hvalue : Yields (eval env (.attribute test) ctx)
      (.attributes (attributeValues env.doc test [ctx.node])) := by
    rw [eval]
    exact .pure _
  have hholds := yields_holdAll_cons hvalue yields_holdAll_nil
  have hhead := congrArg Option.isSome (head?_attributeValues env.doc test ctx.node)
  rw [Option.isSome_map] at hhead
  have hverdict : (holdsAt ctx.position (.attributes (attributeValues env.doc test [ctx.node])) &&
      true) = hasAttribute env.doc test ctx.node := by
    rw [Bool.and_true, holdsAt_eq_toBool (by simp [Value.kind]), Value.toBool, hasAttribute,
      ← hhead]
    cases attributeValues env.doc test [ctx.node] <;> rfl
  rwa [hverdict] at hholds

/-- The comparison of an attribute with a literal has a value wherever the literal has. -/
theorem yields_compareAttribute (env : Setting) (ctx : Context) (op : CompareOp) (test : NameTest)
    {e : Expr} {literal : Value} {operand : Operand} (he : Yields (eval env e ctx) literal)
    (hliteral : IsLiteral literal operand) :
    Yields (eval env (.binary (.compare op) (.attribute test) e) ctx)
      (.boolean (attributeCompares env.doc op test operand ctx.node)) := by
  rw [← compareValues_attributes env.doc op test ctx.node hliteral, eval, eval]
  exact Visiting.Yields.bind (.pure _) (he.bind (.pure _))

/-- The first attribute that the test admits starts with a number in this order to the threshold. -/
def Meets (doc : Document) (test : NameTest) (op : CompareOp) (threshold : Float)
    (id : NodeId) : Prop :=
  ∃ a x, firstAttribute? test (doc.attributes id) = some a ∧
    Number.leading? a.value.toList = some x ∧ x.isNaN = false ∧ threshold.isNaN = false ∧
    Ordering op x threshold

theorem attributeCompares_iff (hop : op ∈ orderings) {threshold : Float} {id : NodeId} :
    attributeCompares doc op test (.number threshold) id = true ↔
      Meets doc test op threshold id := by
  simp only [attributeCompares, compareOperands_text_number hop, Option.any_eq_true,
    compareNumbers_eq_true_iff hop, Meets]
  constructor
  · rintro ⟨a, ha, x, hx, horder⟩
    exact ⟨a, x, ha, hx, horder⟩
  · rintro ⟨a, x, ha, hx, horder⟩
    exact ⟨a, ha, x, hx, horder⟩

end

/-- At the last step of any path, an order between an attribute and a number selects those nodes
whose first attribute that the test admits starts with a number in this order, and the attribute
alone selects those that have an admitted one; in the order of the path, and with its fault if it
has one. -/
theorem evaluate_threshold {doc : Document} {roots : List NodeId} (hdoc : Reachable doc)
    (hroots : roots ≠ []) (hknown : ∀ r ∈ roots, r < doc.size) (absolute : Bool)
    (before : List (Step Expr)) {last : Step Expr} (hlast : last.test.isAttribute = false)
    (test : NameTest) {op : CompareOp} (hop : op ∈ orderings) (threshold : Float) :
    let path := evaluate doc roots (.path ⟨absolute, before ++ [last]⟩) none
    let select : Expr → Except EvaluationError (List NodeId) := fun predicate =>
      evaluate doc roots (.path (furtherPath absolute before last [predicate])) none
    let compared : Expr := .binary (.compare op) (.attribute test) (.number threshold)
    (Parsed (.path ⟨absolute, before ++ [last]⟩) → ∃ ids, path = .ok ids) ∧
      (∀ e, path = .error e → select (.attribute test) = .error e ∧ select compared = .error e) ∧
      ∀ ids, path = .ok ids → ∃ present passing,
        select (.attribute test) = .ok present ∧ select compared = .ok passing ∧
          present.Sublist ids ∧ passing.Sublist present ∧
          (∀ id, id ∈ present ↔ id ∈ ids ∧
            ∃ a ∈ doc.attributes id, test.admits (attributeLocalPart a.name) a.name = true) ∧
          ∀ id, id ∈ passing ↔ id ∈ ids ∧ Meets doc test op threshold id := by
  intro path select compared
  have hwf := hdoc.wellFormed
  have hattribute : select (.attribute test) = path.map fun ids =>
      ids.filter (hasAttribute doc test) :=
    evaluate_furtherPath_eq_filter hwf hroots hknown absolute before hlast
      (decides_attribute _ test)
  have hcompared : select compared = path.map fun ids =>
      ids.filter (attributeCompares doc op test (.number threshold)) :=
    evaluate_furtherPath_eq_filter hwf hroots hknown absolute before hlast
      (decides_of_boolean fun ctx _ => yields_compareAttribute _ ctx op test
        (by rw [eval]; exact Visiting.Yields.pure _) (.number threshold))
  refine ⟨fun hparsed => ?_, fun e he => ?_, fun ids hids => ?_⟩
  · have hnodes : Path.endsInAttribute ⟨absolute, before ++ [last]⟩ = false := by
      rw [Path.endsInAttribute, List.getLast?_concat]
      exact hlast
    obtain ⟨ids, hids⟩ := exists_nodes_of_parsed hwf hroots hknown hparsed hnodes
    exact ⟨ids, evaluate_of_evaluateValue hids⟩
  · rw [hattribute, hcompared, he]
    exact ⟨rfl, rfl⟩
  · rw [hids] at hattribute hcompared
    refine ⟨_, _, hattribute, hcompared, List.filter_sublist, ?_, fun id => ?_, fun id => ?_⟩
    · exact List.monotone_filter_right ids fun id => hasAttribute_of_attributeCompares
    · rw [List.mem_filter, hasAttribute_iff]
    · rw [List.mem_filter, attributeCompares_iff hop]

/-- An element with four children: their attributes hold a number with a unit, a text, a number
under another name, and a number under a prefixed name. -/
def measured : Document :=
  ([("n", "9px"), ("n", "x"), ("m", "9"), ("p:n", "12")].map fun a =>
    Edit.createChild 0 ((ElementSpec.named "a").withAttribute a.1 a.2)
      (.withAttribute a.1 a.2 (.named "a"))).foldl Document.after (.withRoot (.named "r"))

theorem reachable_measured : Reachable measured := (Reachable.withRoot (.named "r")).run _

/-- The children above a threshold, and those that have the attribute. -/
theorem evaluate_threshold_measured :
    let select : List Expr → Except EvaluationError (List NodeId) := fun further =>
      evaluate measured [0] (.path (furtherPath false [] ⟨.child, .any, []⟩ further)) none
    let compared : Expr := .binary (.compare .greater) (.attribute (.name "n")) (.number 8.5)
    select [] = .ok [1, 2, 3, 4] ∧ select [.attribute (.name "n")] = .ok [1, 2, 4] ∧
      select [compared] = .ok [1, 4] ∧
      ∀ id, id ∈ [1, 4] ↔ id ∈ [1, 2, 3, 4] ∧ Meets measured (.name "n") .greater 8.5 id := by
  intro select compared
  have hpath : select [] = .ok [1, 2, 3, 4] := by decide +kernel
  have hpresent : select [.attribute (.name "n")] = .ok [1, 2, 4] := by decide +kernel
  have hpassing : select [compared] = .ok [1, 4] := by decide +kernel
  have hlast : (⟨.child, .any, []⟩ : Step Expr).test.isAttribute = false := rfl
  have hop : CompareOp.greater ∈ orderings := by decide
  obtain ⟨-, -, hnodes⟩ := evaluate_threshold reachable_measured (List.cons_ne_nil 0 [])
    (by decide +kernel) false [] hlast (.name "n") hop 8.5
  obtain ⟨present, passing, -, hok, -, -, -, hmeets⟩ := hnodes _ hpath
  cases hok.symm.trans hpassing
  exact ⟨hpath, hpresent, hpassing, hmeets⟩

end MarkupPath.Evaluation
