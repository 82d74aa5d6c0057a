import MarkupPath.Number.Text
import MarkupPath.Query.Expr
import MarkupPath.Tree.Document

/-!
# Values

What an expression yields: a number, a string, a boolean, nodes in document order, or the values of
attributes. Each converts to a boolean, to a string and to a number; a set converts by its first
member, and a node counts as its own text. No conversion fails: what is not a number is NaN.
-/

set_option autoImplicit false

namespace MarkupPath.Evaluation

open MarkupPath.Query MarkupPath.Tree

/-- What an expression yields. -/
inductive Value where
  | number (x : Float)
  | string (text : String)
  | boolean (b : Bool)
  | nodes (ids : List NodeId)
  | attributes (values : List String)
  deriving Repr

namespace Value

/-- The kind of the value in words. -/
def typeName : Value → String
  | .number _ => "number"
  | .string _ => "string"
  | .boolean _ => "boolean"
  | .nodes _ => "node-set"
  | .attributes _ => "attribute values"

/-- A set is true when it has members, a number unless it is zero or NaN, a string unless it is
empty. -/
def toBool : Value → Bool
  | .number x => x != 0.0 && !x.isNaN
  | .string text => !text.isEmpty
  | .boolean b => b
  | .nodes ids => !ids.isEmpty
  | .attributes values => !values.isEmpty

/-- A number in its canonical text. -/
def scalarText : Value → String
  | .number x => Number.canonical x
  | .string text => text
  | .boolean b => if b then "true" else "false"
  | _ => ""

/-- The first member of a set as text, or the text of a value that is no set. -/
def first? (doc : Document) : Value → Option String
  | .nodes ids => ids.head?.map fun id => (doc.text? id).getD ""
  | .attributes values => values.head?
  | value => some value.scalarText

/-- The value as text; an empty set is the empty text. -/
def toText (doc : Document) (value : Value) : String := (value.first? doc).getD ""

/-- The value as a number. -/
def toFloat (doc : Document) : Value → Float
  | .number x => x
  | .boolean b => if b then 1.0 else 0.0
  | value =>
      match (value.first? doc).bind fun text => Number.leading? text.toList with
      | some x => x
      | none => Number.notANumber

/-- The nodes of a node set. -/
def nodes? : Value → Option (List NodeId)
  | .nodes ids => some ids
  | _ => none

end Value

/-! ## Comparison -/

/-- The comparison of two numbers; none holds of a NaN. -/
def compareNumbers (op : CompareOp) (l r : Float) : Bool :=
  if l.isNaN || r.isNaN then false
  else
    match op with
    | .equal => l == r
    | .notEqual => l != r
    | .less => l < r
    | .lessEqual => l ≤ r
    | .greater => r < l
    | .greaterEqual => r ≤ l

/-- What a value is compared as when no boolean is involved: a number or a text. -/
inductive Operand where
  | number (x : Float)
  | text (value : String)
  deriving Repr

namespace Operand

/-- The operand of a value; an empty set has none. -/
def of? (doc : Document) : Value → Option Operand
  | .number x => some (.number x)
  | value => (value.first? doc).map .text

/-- The operand as a number, if it is one or starts with one. -/
def number? : Operand → Option Float
  | .number x => some x
  | .text value => Number.leading? value.toList

/-- The operand as text. -/
def toText : Operand → String
  | .number x => Number.canonical x
  | .text value => value

end Operand

/-- The comparison of two operands: as numbers if both are, else of their texts, which have no
order. -/
def compareOperands (op : CompareOp) (l r : Operand) : Bool :=
  match l.number?, r.number? with
  | some x, some y => compareNumbers op x y
  | _, _ =>
      match op with
      | .equal => l.toText == r.toText
      | .notEqual => l.toText != r.toText
      | _ => false

/-- A boolean as a number. -/
def boolNumber (b : Bool) : Float := if b then 1.0 else 0.0

/-- The comparison of two values. With a boolean both are compared as booleans; else an empty set
compares false with everything. -/
def compareValues (doc : Document) (op : CompareOp) (l r : Value) : Bool :=
  match l, r with
  | .boolean _, _ => compareNumbers op (boolNumber l.toBool) (boolNumber r.toBool)
  | _, .boolean _ => compareNumbers op (boolNumber l.toBool) (boolNumber r.toBool)
  | l, r =>
      match Operand.of? doc l, Operand.of? doc r with
      | some a, some b => compareOperands op a b
      | _, _ => false

/-! ## Arithmetic -/

/-- The result of an arithmetic operator. -/
def compute (op : ArithmeticOp) (l r : Float) : Float :=
  match op with
  | .add => l + r
  | .sub => l - r
  | .mul => l * r
  | .div => l / r
  | .mod => Number.remainder l r

end MarkupPath.Evaluation
