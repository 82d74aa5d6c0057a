import MarkupPath.Text.Place

/-!
# Names in markup

A name starts with an ASCII letter, an underscore, a colon or any character outside ASCII, and goes
on with these, digits, hyphens and points. `Name.read?` reads the longest one; `before_of_read?`
says that it is read off the front of the text and `ne_nil_of_read?` that it is not empty.
-/

set_option autoImplicit false

namespace MarkupPath.Markup.Name

open MarkupPath.Text

/-- A character that a name may start with. -/
def isStart (c : Char) : Bool :=
  c.isAlpha || c == '_' || c == ':' || 0x80 ≤ c.toNat

/-- A character that a name may go on with. -/
def isPart (c : Char) : Bool :=
  isStart c || c.isDigit || c == '-' || c == '.'

/-- The longest name that stands here, and the place behind it. -/
def read? (p : Place) : Option (List Char × Place) :=
  match p.rest with
  | [] => none
  | c :: _ =>
      if isStart c then some (p.rest.takeWhile isPart, p.skipWhile isPart) else none

theorem isPart_of_isStart {c : Char} (h : isStart c = true) : isPart c = true := by
  simp [isPart, h]

theorem before_of_read? {p q : Place} {name : List Char} (h : read? p = some (name, q)) :
    p.Before name q := by
  unfold read? at h
  split at h
  · cases h
  · split at h
    · cases h
      exact Place.before_skipWhile isPart p
    · cases h

theorem ne_nil_of_read? {p q : Place} {name : List Char} (h : read? p = some (name, q)) :
    name ≠ [] := by
  unfold read? at h
  split at h
  · cases h
  · next c _ hrest =>
      split at h
      · next hc =>
          cases h
          simp [hrest, isPart_of_isStart hc]
      · cases h

end MarkupPath.Markup.Name
