import MarkupPath.Text.Blank
import MarkupPath.Text.Cut

/-!
# Places in a text

A `Place` is what is left of a text together with the number of bytes before it, so that everything
read from it can be located. Each operation either stays or moves forward over text that it returns
or skips; `Place.Before` is that relation, and `Place.before_skipWhile`, `Place.before_of_after?`
and `Place.before_of_cut?` say that the operations obey it.
-/

set_option autoImplicit false

namespace MarkupPath.Text

/-- The unread rest of a text and the number of bytes before it. -/
structure Place where
  offset : Nat
  rest : List Char
  deriving DecidableEq, Repr

namespace Place

/-- The place before a whole text. -/
def start (text : List Char) : Place := ⟨0, text⟩

/-- The place reached by reading `taken`, which leaves `rest`. -/
def past (p : Place) (taken rest : List Char) : Place := ⟨p.offset + byteLength taken, rest⟩

/-- The place behind the run of characters of a class that stands here. -/
def skipWhile (class? : Char → Bool) (p : Place) : Place :=
  p.past (p.rest.takeWhile class?) (p.rest.dropWhile class?)

/-- The place behind `mark`, if the text goes on with it. -/
def after? (mark : List Char) (p : Place) : Option Place :=
  (Text.after? mark p.rest).map (p.past mark)

/-- The text up to the next `mark`, and the place behind that mark. -/
def cut? (mark : List Char) (p : Place) : Option (List Char × Place) :=
  (Text.cut? mark p.rest).map fun halves => (halves.1, p.past (halves.1 ++ mark) halves.2)

/-! ## Moving forward -/

/-- The second place is reached from the first by reading `taken`. -/
def Before (p : Place) (taken : List Char) (q : Place) : Prop :=
  p.rest = taken ++ q.rest ∧ q.offset = p.offset + byteLength taken

theorem before_refl (p : Place) : p.Before [] p := ⟨rfl, rfl⟩

theorem Before.trans {p q r : Place} {first second : List Char} (hpq : p.Before first q)
    (hqr : q.Before second r) : p.Before (first ++ second) r :=
  ⟨by rw [hpq.1, hqr.1, List.append_assoc],
    by rw [hqr.2, hpq.2, byteLength_append, Nat.add_assoc]⟩

theorem Before.length {p q : Place} {taken : List Char} (h : p.Before taken q) :
    p.rest.length = taken.length + q.rest.length := by
  rw [h.1, List.length_append]

theorem before_past {p : Place} {taken rest : List Char} (h : p.rest = taken ++ rest) :
    p.Before taken (p.past taken rest) := ⟨h, rfl⟩

theorem before_skipWhile (class? : Char → Bool) (p : Place) :
    p.Before (p.rest.takeWhile class?) (p.skipWhile class?) :=
  before_past List.takeWhile_append_dropWhile.symm

theorem before_of_after? {mark : List Char} {p q : Place} (h : p.after? mark = some q) :
    p.Before mark q := by
  obtain ⟨after, hafter, rfl⟩ := Option.map_eq_some_iff.1 h
  exact before_past (append_of_after? hafter).symm

theorem before_of_cut? {mark content : List Char} {p q : Place}
    (h : p.cut? mark = some (content, q)) : p.Before (content ++ mark) q := by
  obtain ⟨⟨before, after⟩, hcut, heq⟩ := Option.map_eq_some_iff.1 h
  cases heq
  exact before_past (append_of_cut? hcut).symm

end Place

end MarkupPath.Text
