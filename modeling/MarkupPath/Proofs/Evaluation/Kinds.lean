import MarkupPath.Proofs.Evaluation.Shape

/-!
# Parsed expressions cannot go wrong

`kindOf` tells from an expression alone what kind of value it has. Every evaluation that returns a
value returns one of that kind (`returns_eval_kind`), and over known roots and without a limit the
evaluation of a parsed expression returns a value (`gives_evalFrom`). So an expression that is read
from tokens never calls an unknown function, and it is refused as no node set exactly if its kind is
another one, whatever the document (`evaluateValue_of_ofTokens`).
-/

set_option autoImplicit false

namespace MarkupPath.Evaluation

open MarkupPath.Query MarkupPath.Tree Visiting

/-! ## Kinds -/

/-- The kinds of values. -/
inductive Kind where
  | number
  | string
  | boolean
  | nodes
  | attributes
  deriving DecidableEq, Repr

/-- The kind of a value. -/
def Value.kind : Value → Kind
  | .number _ => .number
  | .string _ => .string
  | .boolean _ => .boolean
  | .nodes _ => .nodes
  | .attributes _ => .attributes

/-- The kind of what a function returns. -/
def callKind : String → Kind
  | "position" => .number
  | "last" => .number
  | "text" => .string
  | "name" => .string
  | _ => .boolean

/-- The kind of what a path selects. -/
def pathKind (p : Path Expr) : Kind := if p.endsInAttribute then .attributes else .nodes

/-- The kind of the value of an expression, told by its outermost part. -/
def kindOf : Expr → Kind
  | .path p => pathKind p
  | .union _ => .nodes
  | .attribute _ => .attributes
  | .binary (.arithmetic _) _ _ => .number
  | .binary _ _ _ => .boolean
  | .not _ => .boolean
  | .negate _ => .number
  | .call name _ => callKind name
  | .number _ => .number
  | .string _ => .string

variable {env : Setting}

/-! ## The kind of a value -/

theorem kind_of_call {doc : Document} {ctx : Context} {name : String} {args : List Value}
    {value : Value} (h : call doc ctx name args = .ok value) : value.kind = callKind name := by
  unfold call at h
  split at h <;> cases h <;> rfl

/-- Attributes are selected by the last step or not at all. -/
theorem returns_evalSteps_kind {absolute : Bool} {steps : List (Step Expr)}
    (hinside : ∀ s ∈ steps.dropLast, s.test.isAttribute = false) (items : List Item) :
    Returns (evalSteps env steps items) fun value =>
      value.kind = pathKind ⟨absolute, steps⟩ := by
  induction steps generalizing items with
  | nil =>
    rw [evalSteps]
    exact .pure rfl
  | cons s rest ih =>
    rw [evalSteps]
    split
    · next test htest =>
      -- a test of attributes leaves no step behind it
      have hlast : rest = [] := by
        by_contra hne
        have hs := hinside s (by rw [List.dropLast_cons_of_ne_nil hne]; exact List.mem_cons_self)
        rw [htest] at hs
        cases hs
      exact .pure (by simp [Value.kind, pathKind, Path.endsInAttribute, hlast, htest,
        NodeTest.isAttribute])
    · next htest =>
      refine (returns_true _).bind fun found _ => ?_
      cases rest with
      | nil =>
        rw [evalSteps]
        refine .pure ?_
        have hs : s.test.isAttribute = false := by
          rw [NodeTest.isAttribute]
          exact htest
        simp [Value.kind, pathKind, Path.endsInAttribute, hs]
      | cons next later =>
        -- the last step is that of the rest
        have hsame : pathKind ⟨absolute, s :: next :: later⟩ =
            pathKind ⟨absolute, next :: later⟩ := by
          rw [pathKind, pathKind, Path.endsInAttribute, List.getLast?_cons_cons]
          rfl
        rw [hsame]
        refine ih (fun t ht => hinside t ?_) _
        rw [List.dropLast_cons_of_ne_nil (List.cons_ne_nil next later)]
        exact List.mem_cons_of_mem _ ht

theorem returns_evalPath_kind {p : Path Expr} (hp : Regular p) (starts : List Item) :
    Returns (evalPath env p starts) fun value => value.kind = pathKind p := by
  obtain ⟨absolute, steps⟩ := p
  rw [evalPath]
  exact returns_evalSteps_kind hp.2 _

/-- A value is of the kind that its expression tells. -/
theorem returns_eval_kind {e : Expr} (he : ∀ p ∈ ownPaths e, Regular p) (ctx : Context) :
    Returns (eval env e ctx) fun value => value.kind = kindOf e := by
  cases e with
  | path p =>
    rw [eval]
    exact returns_evalPath_kind (he p List.mem_cons_self) _
  | union paths =>
    rw [eval]
    exact (returns_true _).bind fun found _ => .pure rfl
  | binary op left right =>
    cases op with
    | or =>
      rw [eval]
      refine (returns_true _).bind fun l _ => ?_
      split
      · exact .pure rfl
      · exact (returns_true _).bind fun r _ => .pure rfl
    | and =>
      rw [eval]
      refine (returns_true _).bind fun l _ => ?_
      split
      · exact (returns_true _).bind fun r _ => .pure rfl
      · exact .pure rfl
    | compare op =>
      rw [eval]
      exact (returns_true _).bind fun l _ => (returns_true _).bind fun r _ => .pure rfl
    | arithmetic op =>
      rw [eval]
      exact (returns_true _).bind fun l _ => (returns_true _).bind fun r _ => .pure rfl
  | not arg =>
    rw [eval]
    exact (returns_true _).bind fun value _ => .pure rfl
  | negate arg =>
    rw [eval]
    exact (returns_true _).bind fun value _ => .pure rfl
  | call name args =>
    rw [eval]
    refine (returns_true _).bind fun values _ => ?_
    exact .lift (fun value hvalue => kind_of_call hvalue) fun _ _ => trivial
  | _ =>
    rw [eval]
    exact .pure rfl

theorem returns_evalFrom_kind {e : Expr} (he : ∀ p ∈ ownPaths e, Regular p) (first : NodeId) :
    Returns (evalFrom env first e) fun value => value.kind = kindOf e := by
  unfold evalFrom
  split
  · exact returns_evalPath_kind (he _ List.mem_cons_self) _
  · exact (returns_true _).bind fun found _ => .pure rfl
  · exact .pure rfl
  · exact returns_eval_kind he _

/-! ## Evaluations that return -/

variable {fault : EvaluationError → Prop} {onPath : Path Expr → Prop}
  {onCall : String → Nat → Prop}

/-- A whole evaluation fails only with the faults that its parts may have. -/
theorem gives_evalFrom (h : Expected env fault onPath onCall) {e : Expr}
    (he : e.Every onPath onCall) {first : NodeId} (hfirst : first ∈ env.roots) :
    Gives fault (evalFrom env first e) fun _ => True := by
  have hroots := around_of_mem_roots h.sound
  unfold evalFrom
  split
  · next p =>
    rw [Expr.Every] at he
    exact (gives_evalPath h p he _ hroots).mono fun _ _ => trivial
  · next paths =>
    rw [Expr.Every] at he
    exact (gives_evalPaths h paths he _ hroots).bind fun _ _ => .pure trivial
  · exact .pure trivial
  · exact (gives_eval h _ he _ (h.sound.around_of_mem hfirst)).mono fun _ _ => trivial

/-- Parsed expressions fail at the limit on visits only. -/
theorem expected_parsed (h : env.Sound) :
    Expected env (fun fault => ∃ most, env.limit = some most ∧ fault = .limit most) Regular
      KnownCall where
  sound := h
  limit := fun most hmost => ⟨most, hmost, rfl⟩
  path := fun _ hp => hp.1
  call := fun _ _ hcall => .inl hcall

/-- Without a limit parsed expressions never fail. -/
theorem expected_never (h : env.Sound) (hlimit : env.limit = none) :
    Expected env (fun _ => False) Regular KnownCall where
  sound := h
  limit := by
    intro most hmost
    rw [hlimit] at hmost
    cases hmost
  path := fun _ hp => hp.1
  call := fun _ _ hcall => .inl hcall

section

variable {doc : Document} {roots : List NodeId} {e : Expr}

/-- Over known roots a parsed expression has a value of its kind, or it reaches the limit. -/
theorem outcome_of_parsed (hdoc : doc.WellFormed) (hroots : roots ≠ [])
    (hknown : ∀ r ∈ roots, r < doc.size) (he : Parsed e) (limit : Option Nat) :
    Outcome (fun fault => ∃ most, limit = some most ∧ fault = .limit most)
      (fun value => value.kind = kindOf e) (evaluateValue doc roots e limit) := by
  have henv := Setting.Sound.of hdoc hknown limit
  obtain ⟨first, hfirst⟩ := Option.isSome_iff_exists.1 (List.isSome_head?.2 hroots)
  have hmem : first ∈ roots := List.mem_of_head? hfirst
  rw [evaluateValue_eq hfirst hknown]
  have hkind : Returns (evalFrom (Setting.of doc roots limit) first e)
      fun value => value.kind = kindOf e := returns_evalFrom_kind (onPath_of_every he) first
  have hgives := gives_evalFrom (expected_parsed henv) he hmem
  exact (hkind.and hgives).mono (fun _ hvalue => hvalue.1) 0

/-- Without a limit a parsed expression has a value of its kind. -/
theorem exists_value_of_parsed (hdoc : doc.WellFormed) (hroots : roots ≠ [])
    (hknown : ∀ r ∈ roots, r < doc.size) (he : Parsed e) :
    ∃ value, evaluateValue doc roots e none = .ok value ∧ value.kind = kindOf e := by
  have houtcome := outcome_of_parsed hdoc hroots hknown he none
  cases hvalue : evaluateValue doc roots e none with
  | ok value =>
    rw [hvalue] at houtcome
    exact ⟨value, rfl, houtcome⟩
  | error fault =>
    rw [hvalue] at houtcome
    obtain ⟨most, hmost, -⟩ := houtcome
    cases hmost

theorem evaluate_of_evaluateValue {ids : List NodeId}
    (h : evaluateValue doc roots e none = .ok (.nodes ids)) :
    evaluate doc roots e none = .ok ids := by
  rw [evaluate, h]
  rfl

/-- A parsed path that does not end in a test of attributes selects nodes. -/
theorem exists_nodes_of_parsed {p : Path Expr} (hdoc : doc.WellFormed) (hroots : roots ≠ [])
    (hknown : ∀ r ∈ roots, r < doc.size) (hp : Parsed (.path p))
    (hnodes : p.endsInAttribute = false) :
    ∃ ids, evaluateValue doc roots (.path p) none = .ok (.nodes ids) := by
  obtain ⟨value, hvalue, hkind⟩ := exists_value_of_parsed hdoc hroots hknown hp
  rw [kindOf, pathKind, hnodes] at hkind
  cases value with
  | nodes ids => exact ⟨ids, hvalue⟩
  | _ => cases hkind

/-- The nodes that a parsed expression selects are elements around the roots, in document order. -/
theorem sublist_elementsAround {ids : List NodeId} (hdoc : doc.WellFormed) (hroots : roots ≠ [])
    (hknown : ∀ r ∈ roots, r < doc.size) (he : Parsed e)
    (hids : evaluateValue doc roots e none = .ok (.nodes ids)) :
    ids.Sublist (doc.elementsAround roots) := by
  obtain ⟨first, hfirst⟩ := Option.isSome_iff_exists.1 (List.isSome_head?.2 hroots)
  have hordered := returns_evalFrom (Setting.Sound.of hdoc hknown none)
    (fun r hr => (onPath_of_every he r hr).1) first 0
  rw [← evaluateValue_eq hfirst hknown, hids] at hordered
  exact hordered ids rfl

/-- A parsed expression calls no unknown function, whatever the roots and the limit. -/
theorem evaluateValue_ne_unknownFunction (hdoc : doc.WellFormed) (he : Parsed e)
    (limit : Option Nat) (name : String) (n : Nat) :
    evaluateValue doc roots e limit ≠ .error (.unknownFunction name n) := by
  intro herror
  cases hroots : roots with
  | nil =>
    rw [hroots] at herror
    cases herror
  | cons first rest =>
    by_cases hknown : ∀ r ∈ roots, r < doc.size
    · have houtcome := outcome_of_parsed hdoc (by rw [hroots]; exact List.cons_ne_nil _ _) hknown he
        limit
      rw [herror] at houtcome
      obtain ⟨most, -, hfault⟩ := houtcome
      cases hfault
    · -- with an unknown root the evaluation does not even start
      rw [hroots] at herror hknown
      rw [evaluateValue] at herror
      cases hcheck : checkKnown doc (first :: rest) with
      | ok u => exact hknown (checkKnown_eq_ok_iff.1 hcheck)
      | error fault =>
        rw [hcheck] at herror
        rw [checkKnown] at hcheck
        split at hcheck
        · cases hcheck
          cases herror
        · cases hcheck

end

/-- An expression that is read from tokens calls no unknown function. Over known roots, of which
there is at least one, and without a limit on visits it has a value of its own kind, and it is
refused as no node set exactly if its kind is another one. -/
theorem evaluateValue_of_ofTokens {limit : Nat} {tokens : List Token} {e : Expr} {doc : Document}
    (hparse : Expr.ofTokens limit tokens = .ok e) (hdoc : Reachable doc) :
    (∀ (roots : List NodeId) (most : Option Nat) (name : String) (n : Nat),
      evaluateValue doc roots e most ≠ .error (.unknownFunction name n) ∧
        evaluate doc roots e most ≠ .error (.unknownFunction name n)) ∧
    ∀ roots : List NodeId, roots ≠ [] → (∀ r ∈ roots, r < doc.size) →
      (∃ value, evaluateValue doc roots e none = .ok value ∧ value.kind = kindOf e) ∧
        ((∃ typeName, evaluate doc roots e none = .error (.notNodes typeName)) ↔
          kindOf e ≠ .nodes) := by
  have he := every_of_ofTokens hparse
  have hwf := hdoc.wellFormed
  constructor
  · intro roots most name n
    have hvalue : evaluateValue doc roots e most ≠ .error (.unknownFunction name n) :=
      evaluateValue_ne_unknownFunction hwf he most name n
    refine ⟨hvalue, fun herror => ?_⟩
    rw [evaluate] at herror
    cases hcase : evaluateValue doc roots e most with
    | error fault =>
      rw [hcase] at herror hvalue
      cases herror
      exact hvalue rfl
    | ok value =>
      rw [hcase] at herror
      cases value <;> cases herror
  · intro roots hroots hknown
    obtain ⟨value, hvalue, hkind⟩ := exists_value_of_parsed hwf hroots hknown he
    refine ⟨⟨value, hvalue, hkind⟩, ?_⟩
    rw [evaluate, hvalue, ← hkind]
    cases value with
    | nodes ids =>
      refine iff_of_false ?_ (not_not_intro rfl)
      rintro ⟨typeName, herror⟩
      cases herror
    | _ => exact iff_of_true ⟨_, rfl⟩ (by simp [Value.kind])

/-- The tokens of `b/@x`, which yields attributes and so is no node set. -/
theorem attributes_of_child :
    let tokens : List Token := [⟨.name "b", 0⟩, ⟨.symbol .slash, 1⟩, ⟨.symbol .atSign, 2⟩,
      ⟨.name "x", 3⟩, ⟨.stop, 4⟩]
    ∃ e, Expr.ofTokens 1 tokens = .ok e ∧
      (∃ values, evaluateValue nest [0] e none = .ok (.attributes values)) ∧
        ∃ typeName, evaluate nest [0] e none = .error (.notNodes typeName) := by
  intro tokens
  have hparse : Expr.ofTokens 1 tokens = .ok (.path ⟨false,
      [⟨.child, .element (.name "b"), []⟩, ⟨.child, .attribute (.name "x"), []⟩]⟩) := by cbv
  have hreachable : Reachable nest := .edit _ (.edit _ (.withRoot (.named "a")))
  obtain ⟨⟨value, hvalue, hkind⟩, hrefused⟩ := (evaluateValue_of_ofTokens hparse hreachable).2 [0]
    (List.cons_ne_nil 0 []) (by decide +kernel)
  refine ⟨_, hparse, ?_, hrefused.2 fun hnodes => by cases hnodes⟩
  cases value with
  | attributes values => exact ⟨values, hvalue⟩
  | _ => cases hkind

end MarkupPath.Evaluation
