import MarkupPath.Query.Expr.Parse
import MarkupPath.Query.Expr.Text

/-!
# Compiled expressions

An `Expression` is a tree with the text it came from, or with its own text if it was built as a
tree.
-/

set_option autoImplicit false

namespace MarkupPath.Query

/-- An expression and its text. -/
structure Expression where
  source : String
  tree : Expr

namespace Expression

/-- The expression that a text writes. -/
def compile (limit : Nat) (source : String) : Except SyntaxError Expression := do
  let tree ← Expr.ofText limit source
  return ⟨source, tree⟩

/-- The expression of a tree. -/
def ofTree (tree : Expr) : Expression := ⟨tree.text, tree⟩

end Expression

end MarkupPath.Query
