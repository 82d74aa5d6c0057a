import MarkupPath.Number.Binary

/-!
# Expressions

The expressions that select and compare nodes, as trees: paths of steps along an axis, unions of
paths, operators, calls and literals. `Expr.same` compares two of them, with numbers compared as
numbers: a NaN is not the same as itself, and the two zeros are the same.
-/

set_option autoImplicit false

namespace MarkupPath.Query

/-! ## Parts -/

/-- Where a step leads from a node. -/
inductive Axis where
  | self
  | child
  | descendantOrSelf
  | parent
  deriving DecidableEq, Repr

/-- The names that a test admits: every name, or a given one. -/
inductive NameTest where
  | wildcard
  | name (value : String)
  deriving DecidableEq, Repr

/-- What a step selects: elements by name, attributes by name, or every element. -/
inductive NodeTest where
  | element (test : NameTest)
  | attribute (test : NameTest)
  | any
  deriving DecidableEq, Repr

/-- A given name with a prefix is compared with the name as written, any other with its local
part. -/
def NameTest.admits (test : NameTest) (localName name : String) : Bool :=
  match test with
  | .wildcard => true
  | .name value => if value.toList.contains ':' then value == name else value == localName

/-- The step selects attributes. -/
def NodeTest.isAttribute : NodeTest → Bool
  | .attribute _ => true
  | _ => false

/-- Comparisons. -/
inductive CompareOp where
  | equal
  | notEqual
  | less
  | lessEqual
  | greater
  | greaterEqual
  deriving DecidableEq, Repr

/-- Arithmetic operators. -/
inductive ArithmeticOp where
  | add
  | sub
  | mul
  | div
  | mod
  deriving DecidableEq, Repr

/-- Operators between two operands. -/
inductive BinaryOp where
  | or
  | and
  | compare (op : CompareOp)
  | arithmetic (op : ArithmeticOp)
  deriving DecidableEq, Repr

/-! ## Trees -/

/-- A step of a path, with the filters of its nodes in order. -/
structure Step (α : Type) where
  axis : Axis
  test : NodeTest
  predicates : List α
  deriving Repr

/-- A sequence of steps, from the document when `absolute` holds and from the context otherwise. -/
structure Path (α : Type) where
  absolute : Bool
  steps : List (Step α)
  deriving Repr

/-- An expression. A lone attribute step is `attribute`, and a path otherwise. -/
inductive Expr where
  | path (p : Path Expr)
  | union (paths : List (Path Expr))
  | attribute (test : NameTest)
  | binary (op : BinaryOp) (left right : Expr)
  | not (arg : Expr)
  | negate (arg : Expr)
  | call (name : String) (args : List Expr)
  | number (value : Float)
  | string (value : String)

/-- The last step of the path selects attributes. -/
def Path.endsInAttribute {α : Type} (p : Path α) : Bool :=
  p.steps.getLast?.any fun s => s.test.isAttribute

/-! ## Comparison -/

mutual

/-- The two expressions are the same tree. -/
def Expr.same : Expr → Expr → Bool
  | .path p, .path q => Expr.samePath p q
  | .union ps, .union qs => Expr.samePaths ps qs
  | .attribute t, .attribute u => t == u
  | .binary op l r, .binary op' l' r' => op == op' && Expr.same l l' && Expr.same r r'
  | .not e, .not e' => Expr.same e e'
  | .negate e, .negate e' => Expr.same e e'
  | .call n args, .call n' args' => n == n' && Expr.sameList args args'
  | .number v, .number v' => v == v'
  | .string s, .string s' => s == s'
  | _, _ => false

/-- The two paths are the same. -/
def Expr.samePath : Path Expr → Path Expr → Bool
  | ⟨a, ss⟩, ⟨a', ss'⟩ => a == a' && Expr.sameSteps ss ss'

/-- The two lists of paths are the same. -/
def Expr.samePaths : List (Path Expr) → List (Path Expr) → Bool
  | [], [] => true
  | p :: ps, q :: qs => Expr.samePath p q && Expr.samePaths ps qs
  | _, _ => false

/-- The two lists of steps are the same. -/
def Expr.sameSteps : List (Step Expr) → List (Step Expr) → Bool
  | [], [] => true
  | s :: ss, t :: ts => Expr.sameStep s t && Expr.sameSteps ss ts
  | _, _ => false

/-- The two steps are the same. -/
def Expr.sameStep : Step Expr → Step Expr → Bool
  | ⟨a, t, ps⟩, ⟨a', t', ps'⟩ => a == a' && t == t' && Expr.sameList ps ps'

/-- The two lists of expressions are the same. -/
def Expr.sameList : List Expr → List Expr → Bool
  | [], [] => true
  | e :: es, f :: fs => Expr.same e f && Expr.sameList es fs
  | _, _ => false

end

instance : BEq Expr := ⟨Expr.same⟩

/-! ## Functions -/

/-- The functions that expressions may call, each with the number of its arguments. -/
def functions : List (String × Nat) :=
  [("contains", 2), ("not", 1), ("position", 0), ("last", 0), ("text", 0), ("name", 0)]

/-- The number of arguments that a function takes. -/
def arity? (name : String) : Option Nat :=
  (functions.find? fun entry => entry.1 == name).map (·.2)

end MarkupPath.Query
