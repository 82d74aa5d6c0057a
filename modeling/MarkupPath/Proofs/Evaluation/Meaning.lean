import MarkupPath.Proofs.Evaluation.Axis
import Mathlib.Data.Set.Card

/-!
# The meaning of expressions

What expressions mean, without the order of visits, buffers and sorting. A step leads from an item
to a candidate at which all predicates hold; each candidate is judged at its `place`, the number of
candidates that come before it in document order. `Chain` follows the steps of a path, one node
after the other.

`meaning?` gives the value of an expression, or none if it calls an unknown function. A path means
the nodes that its steps lead to, or the values of their attributes if it ends in a test of
attributes.
-/

set_option autoImplicit false

namespace MarkupPath.Evaluation

open MarkupPath.Query MarkupPath.Tree

section

variable (doc : Document) (roots : List NodeId)

/-- A candidate of a step at an item as the context of a predicate: its rank in document order among
all candidates, and their number. -/
noncomputable def place (axis : Axis) (test : NodeTest) (x : Item) (y : NodeId) : Context where
  node := y
  position := {z | Candidate doc roots axis test x z ∧ doc.Before roots z y}.ncard + 1
  size := {z | Candidate doc roots axis test x z}.ncard

open Classical in
/-- The elements around the roots that satisfy a condition, in document order. -/
noncomputable def nodesWith (P : NodeId → Prop) : List NodeId :=
  (doc.elementsAround roots).filter fun y => P y

mutual

/-- The value of an expression at a node. -/
noncomputable def meaning? : Expr → Context → Option Value
  | .path p, ctx => some (pathMeaning p [.node ctx.node])
  | .union paths, ctx =>
      some (.nodes (nodesWith doc roots fun y => inSomePath paths [.node ctx.node] y))
  | .attribute test, ctx => some (.attributes (attributeValues doc test [ctx.node]))
  | .binary .or left right, ctx => do
      let l ← meaning? left ctx
      if l.toBool then some (.boolean true)
      else
        let r ← meaning? right ctx
        some (.boolean r.toBool)
  | .binary .and left right, ctx => do
      let l ← meaning? left ctx
      if l.toBool then
        let r ← meaning? right ctx
        some (.boolean r.toBool)
      else some (.boolean false)
  | .binary (.compare op) left right, ctx => do
      let l ← meaning? left ctx
      let r ← meaning? right ctx
      some (.boolean (compareValues doc op l r))
  | .binary (.arithmetic op) left right, ctx => do
      let l ← meaning? left ctx
      let r ← meaning? right ctx
      some (.number (compute op (l.toFloat doc) (r.toFloat doc)))
  | .not arg, ctx => do
      let value ← meaning? arg ctx
      some (.boolean !value.toBool)
  | .negate arg, ctx => do
      let value ← meaning? arg ctx
      some (.number (-(value.toFloat doc)))
  | .call name args, ctx => do
      let values ← meanings? args ctx
      (call doc ctx name values).toOption
  | .number x, _ => some (.number x)
  | .string text, _ => some (.string text)

/-- The values of arguments at a node. -/
noncomputable def meanings? : List Expr → Context → Option (List Value)
  | [], _ => some []
  | arg :: rest, ctx => do
      let value ← meaning? arg ctx
      let values ← meanings? rest ctx
      some (value :: values)

/-- What a path selects from some items. -/
noncomputable def pathMeaning : Path Expr → List Item → Value
  | ⟨absolute, steps⟩, starts => stepsMeaning steps (if absolute then [.document] else starts)

/-- Some of the paths selects the node. -/
noncomputable def inSomePath : List (Path Expr) → List Item → NodeId → Prop
  | [], _, _ => False
  | p :: rest, starts, y =>
      y ∈ ((pathMeaning p starts).nodes?.getD []) ∨ inSomePath rest starts y

/-- What steps select from some items. -/
noncomputable def stepsMeaning : List (Step Expr) → List Item → Value
  | [], items => .nodes (items.filterMap Item.node?)
  | s :: rest, items =>
      match s.test with
      | .attribute test => .attributes (attributeValues doc test (items.filterMap Item.node?))
      | _ =>
          let found := nodesWith doc roots fun y => ∃ x ∈ items, stepLeads s x y
          stepsMeaning rest (found.map Item.node)

/-- The step leads from an item to a node. -/
noncomputable def stepLeads : Step Expr → Item → NodeId → Prop
  | ⟨axis, test, predicates⟩, x, y =>
      Candidate doc roots axis test x y ∧ allHold predicates (place doc roots axis test x y)

/-- All predicates hold at a node. -/
noncomputable def allHold : List Expr → Context → Prop
  | [], _ => True
  | predicate :: rest, ctx =>
      (∃ value, meaning? predicate ctx = some value ∧ holdsAt ctx.position value = true) ∧
        allHold rest ctx

end

/-- The predicate holds at a node. -/
def Holds (predicate : Expr) (ctx : Context) : Prop :=
  ∃ value, meaning? doc roots predicate ctx = some value ∧ holdsAt ctx.position value = true

/-- The steps of a path lead, each from the node of the one before it, from an item to a node. -/
inductive Chain : List (Step Expr) → Item → NodeId → Prop where
  | done (n : NodeId) : Chain [] (.node n) n
  | step {s : Step Expr} {rest : List (Step Expr)} {x : Item} {y n : NodeId} :
      Candidate doc roots s.axis s.test x y →
      (∀ predicate ∈ s.predicates, Holds doc roots predicate (place doc roots s.axis s.test x y)) →
      Chain rest (.node y) n → Chain (s :: rest) x n

end

end MarkupPath.Evaluation
