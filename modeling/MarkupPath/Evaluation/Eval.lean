import MarkupPath.Evaluation.Axis
import MarkupPath.Evaluation.Value

/-!
# Evaluation

`evaluateValue` gives the value of an expression over the trees that hold some roots. Relative paths
start at the roots, or inside predicates at the node in question; absolute ones start at the virtual
document above the roots. Nodes come out in document order and each once. Every node that a step
comes across counts as visited, and an evaluation may be given a limit on visits.
-/

set_option autoImplicit false

namespace MarkupPath.Evaluation

open MarkupPath.Query MarkupPath.Tree MarkupPath.Text

/-! ## Faults -/

/-- Why an evaluation has no value. Calls of unknown functions do not occur in expressions read from
text. -/
inductive EvaluationError where
  | unknownFunction (name : String) (args : Nat)
  | noRoot
  | unknownRoot (id : NodeId)
  | notNodes (typeName : String)
  | limit (most : Nat)
  deriving DecidableEq, Repr

/-- The error in words. -/
def EvaluationError.message : EvaluationError → String
  | .unknownFunction name args => "unknown function: " ++ name ++ "/" ++ toString args ++ "()"
  | .noRoot => "invalid evaluation root: no evaluation root"
  | .unknownRoot id => "invalid evaluation root: node " ++ id.label ++ " is not in this document"
  | .notNodes typeName => "expression does not select nodes (yields " ++ typeName ++ ")"
  | .limit most => "evaluation visited more than " ++ toString most ++ " nodes"

/-! ## Surroundings -/

/-- What an evaluation works on: the document, the roots, the most visits it may make, and the
elements of the trees around the roots in document order. -/
structure Setting where
  doc : Document
  roots : List NodeId
  limit : Option Nat
  order : List NodeId
  deriving Repr

/-- The setting of an evaluation. -/
def Setting.of (doc : Document) (roots : List NodeId) (limit : Option Nat) : Setting :=
  ⟨doc, roots, limit, doc.elementsAround roots⟩

/-- The nodes in document order and each once. -/
def Setting.sorted (env : Setting) (ids : List NodeId) : List NodeId := inOrder env.order ids

/-- The node in question, and its place among those that a step found. -/
structure Context where
  node : NodeId
  position : Nat
  size : Nat
  deriving DecidableEq, Repr

/-- A computation that counts visits and may fail. -/
abbrev Visiting (α : Type) := StateT Nat (Except EvaluationError) α

/-- The evaluation comes across some nodes. -/
def visit (env : Setting) (count : Nat) : Visiting Unit := do
  let visited := (← get) + count
  set visited
  match env.limit with
  | some most => if visited > most then throw (.limit most)
  | none => pure ()

/-! ## Functions -/

/-- The value of a call. -/
def call (doc : Document) (ctx : Context) (name : String) (args : List Value) :
    Except EvaluationError Value :=
  match name, args with
  -- positions are counted from one
  | "position", [] => .ok (.number (Float.ofNat ctx.position))
  | "last", [] => .ok (.number (Float.ofNat ctx.size))
  | "text", [] => .ok (.string ((doc.text? ctx.node).getD ""))
  | "name", [] => .ok (.string ((doc.name? ctx.node).getD ""))
  | "not", [arg] => .ok (.boolean !arg.toBool)
  | "contains", [whole, part] =>
      .ok (.boolean (cut? (part.toText doc).toList (whole.toText doc).toList).isSome)
  | name, args => .error (.unknownFunction name args.length)

/-! ## Expressions -/

/-- A predicate holds at a position: a number does if it is that position, any other value if it is
true. -/
def holdsAt (position : Nat) : Value → Bool
  | .number x => x == Float.ofNat position
  | value => value.toBool

/-- The candidates of a step that pass a test; each is tested at its place among all of them. -/
def keep (test : Context → Visiting Bool) (size : Nat) : Nat → List NodeId → Visiting (List NodeId)
  | _, [] => pure []
  | position, id :: rest => do
      let kept ← test ⟨id, position, size⟩
      let later ← keep test size (position + 1) rest
      return if kept then id :: later else later

/-- The candidates of a step at an item: what its axis reaches and its test admits. Below the
document they are put into document order, since the roots may come in any order and inside each
other. -/
def candidates (env : Setting) (axis : Axis) (test : NodeTest) (item : Item) :
    Visiting (List NodeId) := do
  let found := navigate env.doc env.roots axis item
  visit env found.length
  let admitted := found.filter (passes env.doc test)
  return if item == .document && env.roots.length > 1 then env.sorted admitted else admitted

/-- The nodes that a step found at several items. One item's are in order already. -/
def merge (env : Setting) (groups : List (List NodeId)) : List NodeId :=
  if (groups.filter fun group => !group.isEmpty).length > 1 then env.sorted groups.flatten
  else groups.flatten

mutual

/-- The value of an expression at a node. The right operand of `or` and `and` is evaluated only if
the left one leaves the matter open. -/
def eval (env : Setting) : Expr → Context → Visiting Value
  | .path p, ctx => evalPath env p [.node ctx.node]
  | .union paths, ctx => do
      let found ← evalPaths env paths [.node ctx.node]
      return .nodes (env.sorted found)
  | .attribute test, ctx => return .attributes (attributeValues env.doc test [ctx.node])
  | .binary .or left right, ctx => do
      let l ← eval env left ctx
      if l.toBool then return .boolean true
      else
        let r ← eval env right ctx
        return .boolean r.toBool
  | .binary .and left right, ctx => do
      let l ← eval env left ctx
      if l.toBool then
        let r ← eval env right ctx
        return .boolean r.toBool
      else return .boolean false
  | .binary (.compare op) left right, ctx => do
      let l ← eval env left ctx
      let r ← eval env right ctx
      return .boolean (compareValues env.doc op l r)
  | .binary (.arithmetic op) left right, ctx => do
      let l ← eval env left ctx
      let r ← eval env right ctx
      return .number (compute op (l.toFloat env.doc) (r.toFloat env.doc))
  | .not arg, ctx => do
      let value ← eval env arg ctx
      return .boolean !value.toBool
  | .negate arg, ctx => do
      let value ← eval env arg ctx
      return .number (-(value.toFloat env.doc))
  | .call name args, ctx => do
      let values ← evalArgs env args ctx
      call env.doc ctx name values
  | .number x, _ => return .number x
  | .string text, _ => return .string text

/-- The values of arguments at a node. -/
def evalArgs (env : Setting) : List Expr → Context → Visiting (List Value)
  | [], _ => return []
  | arg :: rest, ctx => do
      let value ← eval env arg ctx
      let values ← evalArgs env rest ctx
      return value :: values

/-- What a path selects from some items. -/
def evalPath (env : Setting) : Path Expr → List Item → Visiting Value
  | ⟨absolute, steps⟩, starts => evalSteps env steps (if absolute then [.document] else starts)

/-- The nodes that some paths select from some items, path by path. -/
def evalPaths (env : Setting) : List (Path Expr) → List Item → Visiting (List NodeId)
  | [], _ => return []
  | p :: rest, starts => do
      let value ← evalPath env p starts
      let later ← evalPaths env rest starts
      return (value.nodes?.getD []) ++ later

/-- What steps select from some items. A test of attributes ends the path with their values. -/
def evalSteps (env : Setting) : List (Step Expr) → List Item → Visiting Value
  | [], items => return .nodes (items.filterMap Item.node?)
  | s :: rest, items =>
      match s.test with
      | .attribute test =>
          return .attributes (attributeValues env.doc test (items.filterMap Item.node?))
      | _ => do
          let found ← evalStep env s items
          evalSteps env rest (found.map Item.node)

/-- The nodes that a step selects from some items. -/
def evalStep (env : Setting) : Step Expr → List Item → Visiting (List NodeId)
  | ⟨axis, test, predicates⟩, items => do
      let groups ← items.mapM fun item => do
        let found ← candidates env axis test item
        keep (fun ctx => holdAll env predicates ctx) found.length 1 found
      return merge env groups

/-- All predicates hold at a node. -/
def holdAll (env : Setting) : List Expr → Context → Visiting Bool
  | [], _ => return true
  | predicate :: rest, ctx => do
      let value ← eval env predicate ctx
      if holdsAt ctx.position value then holdAll env rest ctx else return false

end

/-! ## Whole evaluations -/

/-- All the nodes belong to the document; if not, the fault names the first that does not. -/
def checkKnown (doc : Document) (ids : List NodeId) : Except EvaluationError Unit :=
  match ids.find? fun id => !doc.contains id with
  | some id => .error (.unknownRoot id)
  | none => .ok ()

/-- The value of an expression from all roots at once, if it is a path, a union or an attribute, and
at the first root otherwise. -/
def evalFrom (env : Setting) (first : NodeId) (e : Expr) : Visiting Value :=
  match e with
  | .path p => evalPath env p (env.roots.map Item.node)
  | .union paths => do
      let found ← evalPaths env paths (env.roots.map Item.node)
      return .nodes (env.sorted found)
  | .attribute test => return .attributes (attributeValues env.doc test env.roots)
  | e => eval env e ⟨first, 1, 1⟩

/-- The value of an expression over some roots, of which there is at least one. -/
def evaluateValue (doc : Document) (roots : List NodeId) (e : Expr) (limit : Option Nat) :
    Except EvaluationError Value :=
  match roots with
  | [] => .error .noRoot
  | first :: _ => do
      checkKnown doc roots
      (evalFrom (Setting.of doc roots limit) first e).run' 0

/-- The nodes that an expression selects. -/
def evaluate (doc : Document) (roots : List NodeId) (e : Expr) (limit : Option Nat) :
    Except EvaluationError (List NodeId) := do
  let value ← evaluateValue doc roots e limit
  match value with
  | .nodes ids => return ids
  | other => throw (.notNodes other.typeName)

/-- Those of the nodes at which a predicate holds; each is tested at its place among all of them. -/
def filterNodes (doc : Document) (roots ids : List NodeId) (predicate : Expr) :
    Except EvaluationError (List NodeId) := do
  checkKnown doc roots
  checkKnown doc ids
  let env := Setting.of doc roots none
  (keep (fun ctx => holdAll env [predicate] ctx) ids.length 1 ids).run' 0

end MarkupPath.Evaluation
