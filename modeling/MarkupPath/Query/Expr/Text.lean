import MarkupPath.Number.Text
import MarkupPath.Query.Expr

/-!
# Expressions as text

`Expr.text` writes an expression. Conjunctions, disjunctions and arithmetic stand in parentheses,
comparisons do not. A string stands in single quotes, or in double quotes if it holds a single one.
-/

set_option autoImplicit false

namespace MarkupPath.Query

/-- How a comparison is written. -/
def CompareOp.spelling : CompareOp → String
  | .equal => "="
  | .notEqual => "!="
  | .less => "<"
  | .lessEqual => "<="
  | .greater => ">"
  | .greaterEqual => ">="

/-- How an arithmetic operator is written. -/
def ArithmeticOp.spelling : ArithmeticOp → String
  | .add => "+"
  | .sub => "-"
  | .mul => "*"
  | .div => "div"
  | .mod => "mod"

/-- How an operator is written. -/
def BinaryOp.spelling : BinaryOp → String
  | .or => "or"
  | .and => "and"
  | .compare op => op.spelling
  | .arithmetic op => op.spelling

/-- An operator and its operands; only a comparison stands without parentheses. -/
def BinaryOp.join (op : BinaryOp) (left right : String) : String :=
  let bare := left ++ " " ++ op.spelling ++ " " ++ right
  match op with
  | .compare _ => bare
  | _ => "(" ++ bare ++ ")"

/-- How a name test is written. -/
def NameTest.text : NameTest → String
  | .wildcard => "*"
  | .name value => value

/-- A string literal. -/
def quoted (value : String) : String :=
  if value.toList.contains '\'' then "\"" ++ value ++ "\"" else "'" ++ value ++ "'"

/-- What separates a step from what stands before it; the first step of a relative path has nothing
before it. -/
def Axis.separator (axis : Axis) (first : Bool) : String :=
  match axis with
  | .descendantOrSelf => "//"
  | _ => if first then "" else "/"

/-- A step without its separator and predicates. -/
def stepHead (axis : Axis) (test : NodeTest) : String :=
  match axis, test with
  | .self, _ => "."
  | .parent, _ => ".."
  | _, .any => "."
  | _, .element test => test.text
  | _, .attribute test => "@" ++ test.text

mutual

/-- The text of an expression. -/
def Expr.text : Expr → String
  | .path p => Expr.pathText p
  | .union paths => Expr.pathsText paths
  | .attribute test => "@" ++ test.text
  | .binary op left right => op.join (Expr.text left) (Expr.text right)
  | .not arg => "not(" ++ Expr.text arg ++ ")"
  | .negate arg => "-" ++ Expr.text arg
  | .call name args => name ++ "(" ++ Expr.argsText args ++ ")"
  | .number value => Number.plain value
  | .string value => quoted value

/-- The text of a path. -/
def Expr.pathText : Path Expr → String
  | ⟨absolute, steps⟩ => Expr.stepsText (!absolute) steps

/-- The text of paths with bars between them. -/
def Expr.pathsText : List (Path Expr) → String
  | [] => ""
  | [p] => Expr.pathText p
  | p :: q :: rest => Expr.pathText p ++ " | " ++ Expr.pathsText (q :: rest)

/-- The text of steps; `first` holds where nothing stands before them. -/
def Expr.stepsText (first : Bool) : List (Step Expr) → String
  | [] => ""
  | s :: rest => Expr.stepText first s ++ Expr.stepsText false rest

/-- The text of a step with its separator. -/
def Expr.stepText (first : Bool) : Step Expr → String
  | ⟨axis, test, predicates⟩ =>
      axis.separator first ++ stepHead axis test ++ Expr.predicatesText predicates

/-- The text of predicates, each in brackets. -/
def Expr.predicatesText : List Expr → String
  | [] => ""
  | p :: rest => "[" ++ Expr.text p ++ "]" ++ Expr.predicatesText rest

/-- The text of arguments with commas between them. -/
def Expr.argsText : List Expr → String
  | [] => ""
  | [e] => Expr.text e
  | e :: f :: rest => Expr.text e ++ ", " ++ Expr.argsText (f :: rest)

end

end MarkupPath.Query
