import MarkupPath.Text.Blank

/-!
# Truth values as text

A truth value is written `true` or `false`, in any mix of cases and with blanks around it.
-/

set_option autoImplicit false

namespace MarkupPath.Text

/-- The truth value that a text writes. -/
def truth? (text : List Char) : Option Bool :=
  let word := (trim text).map Char.toLower
  if word == "true".toList then some true
  else if word == "false".toList then some false
  else none

end MarkupPath.Text
