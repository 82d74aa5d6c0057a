import MarkupPath.Evaluation.Eval
import MarkupPath.Query.Expression
import MarkupPath.Tree.Print

/-!
# Result sets

A result set is the list of the nodes that an expression selected, with the expression and the roots
it was evaluated over. It belongs to no document: its members are looked up in whatever document it
is used with, and those unknown there are passed over. Narrowing makes a new set.
-/

set_option autoImplicit false

namespace MarkupPath.Selection

open MarkupPath.Evaluation MarkupPath.Query MarkupPath.Tree

/-- Why a query has no result. -/
inductive QueryError where
  | text (e : SyntaxError)
  | evaluation (e : EvaluationError)
  deriving Repr

/-- The nodes that an expression selected over some roots. -/
structure ResultSet where
  ids : List NodeId
  roots : List NodeId
  expression : Expression

namespace ResultSet

/-- The nodes that an expression selects over some roots. -/
def ofExpression (doc : Document) (roots : List NodeId) (e : Expression) :
    Except EvaluationError ResultSet := do
  let ids ← evaluate doc roots e.tree none
  return ⟨ids, roots, e⟩

/-- The expression that a text writes, with the default limit on nesting. -/
def compile (source : String) : Except QueryError Expression :=
  (Expression.compile defaultDepth source).mapError .text

/-- The nodes that a text selects over some roots. -/
def select (doc : Document) (roots : List NodeId) (source : String) :
    Except QueryError ResultSet := do
  let e ← compile source
  (ofExpression doc roots e).mapError .evaluation

/-- The nodes that a text selects from the document element. -/
def selectAll (doc : Document) (source : String) : Except QueryError ResultSet :=
  select doc doc.documentElement.toList source

/-! ## Reading -/

/-- The members that the document has. -/
def known (s : ResultSet) (doc : Document) : List NodeId := s.ids.filter doc.contains

/-- The member at a position, if the document has it. -/
def get? (s : ResultSet) (doc : Document) (index : Nat) : Option NodeId :=
  s.ids[index]?.filter doc.contains

/-- The own texts of the members. -/
def texts (s : ResultSet) (doc : Document) : List (Option String) := (s.known doc).map doc.text?

/-- The values of an attribute on the members that have it. -/
def attributeValues (s : ResultSet) (doc : Document) (name : String) : List String :=
  (s.known doc).filterMap fun id => doc.attribute? id name

/-- The members as markup. -/
def toMarkup (s : ResultSet) (doc : Document) (options : PrintOptions) : List String :=
  (s.known doc).map fun id => String.ofList (doc.print options id)

/-! ## Narrowing -/

/-- No nodes, over the same roots. -/
def emptied (s : ResultSet) (e : Expression) : ResultSet := ⟨[], s.roots, e⟩

/-- The nodes that a text selects from the members; from no members it selects none. -/
def find (s : ResultSet) (doc : Document) (source : String) : Except QueryError ResultSet :=
  if s.ids.isEmpty then (compile source).map s.emptied else select doc s.ids source

/-- The members at which a predicate holds. -/
def narrow (s : ResultSet) (doc : Document) (predicate : Expr) :
    Except EvaluationError ResultSet :=
  let e := Expression.ofTree predicate
  if s.ids.isEmpty then .ok (s.emptied e)
  else (filterNodes doc s.roots s.ids predicate).map fun ids => ⟨ids, s.roots, e⟩

/-- The comparison of an attribute with a literal. -/
def compareAttribute (name : String) (op : CompareOp) (value : Expr) : Expr :=
  .binary (.compare op) (.attribute (.name name)) value

/-- The members whose attribute has a value. -/
def whereAttributeEq (s : ResultSet) (doc : Document) (name value : String) :
    Except EvaluationError ResultSet :=
  s.narrow doc (compareAttribute name .equal (.string value))

/-- The members that have the attribute, with another value. -/
def whereAttributeNe (s : ResultSet) (doc : Document) (name value : String) :
    Except EvaluationError ResultSet :=
  s.narrow doc (compareAttribute name .notEqual (.string value))

/-- The members whose attribute is a number above a threshold. -/
def whereAttributeGt (s : ResultSet) (doc : Document) (name : String) (threshold : Float) :
    Except EvaluationError ResultSet :=
  s.narrow doc (compareAttribute name .greater (.number threshold))

/-- The members whose attribute is a number below a threshold. -/
def whereAttributeLt (s : ResultSet) (doc : Document) (name : String) (threshold : Float) :
    Except EvaluationError ResultSet :=
  s.narrow doc (compareAttribute name .less (.number threshold))

/-- The members whose first child element of a name has a text. -/
def whereChildEq (s : ResultSet) (doc : Document) (child value : String) :
    Except EvaluationError ResultSet :=
  s.narrow doc (.binary (.compare .equal)
    (.path ⟨false, [⟨.child, .element (.name child), []⟩]⟩) (.string value))

/-- The members with a text. -/
def whereTextEq (s : ResultSet) (doc : Document) (value : String) :
    Except EvaluationError ResultSet :=
  s.narrow doc (.binary (.compare .equal) (.call "text" []) (.string value))

end ResultSet

/-! ## Batches -/

/-- The nodes that each of some expressions selects, in the order of the expressions. -/
def evaluateMany (doc : Document) (roots : List NodeId) (expressions : List Expression) :
    List (Except EvaluationError (List NodeId)) :=
  expressions.map fun e => evaluate doc roots e.tree none

/-- The sets that each of some texts selects, in the order of the texts. -/
def selectMany (doc : Document) (roots : List NodeId) (sources : List String) :
    List (Except QueryError ResultSet) :=
  sources.map fun source => ResultSet.select doc roots source

/-- The sets that some texts select, by their keys, or the first fault. -/
def selectKeyed (doc : Document) (roots : List NodeId) (queries : List (String × String)) :
    Except QueryError (List (String × ResultSet)) :=
  queries.mapM fun query => do
    let s ← ResultSet.select doc roots query.2
    return (query.1, s)

/-- What a function gives for each node that an expression selects. -/
def mapNodes {α : Type} (doc : Document) (roots : List NodeId) (e : Expression)
    (f : NodeId → α) : Except EvaluationError (List α) := do
  let ids ← evaluate doc roots e.tree none
  return ids.map f

end MarkupPath.Selection
