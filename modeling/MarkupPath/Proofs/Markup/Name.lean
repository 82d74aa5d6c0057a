import MarkupPath.Markup.Name
import MarkupPath.Proofs.Text.Cut
import Mathlib.Data.List.TakeWhile

/-!
# Names that are read whole

What stands at a place is skipped, found and cut off as it was put together. A name is whole if all
of it is read as a name: such a name is read wherever nothing that could continue it follows
(`Name.IsWhole.read?_eq`), and every name that is read is of that kind (`Name.whole_of_read?`).
-/

set_option autoImplicit false

namespace MarkupPath.Text.Place

/-! ## Places -/

variable {p : Place} {class? : Char → Bool} {text rest : List Char}

@[simp] theorem past_rest (p : Place) (taken rest : List Char) : (p.past taken rest).rest = rest :=
  rfl

/-- A run of the class is skipped up to a character that is not of it. -/
theorem skipWhile_append {taken : List Char} (htaken : ∀ c ∈ taken, class? c = true)
    (h : p.rest = taken ++ rest) (hrest : ∀ c ∈ rest.head?, class? c = false) :
    p.skipWhile class? = p.past taken rest := by
  rw [skipWhile, h, takeWhile_append_stop htaken hrest, dropWhile_append_stop htaken hrest]

/-- A place stays where the first character is not of the class. -/
theorem skipWhile_eq_self (h : ∀ c ∈ p.rest.head?, class? c = false) : p.skipWhile class? = p :=
  skipWhile_append (by simp) (List.nil_append _).symm h

theorem after?_eq (h : p.rest = text ++ rest) : p.after? text = some (p.past text rest) := by
  rw [after?, h, after?_append]
  rfl

theorem cut?_eq {mark : List Char} (hmark : Unbordered mark) (htext : ¬ mark <:+: text)
    (h : p.rest = text ++ mark ++ rest) :
    p.cut? mark = some (text, p.past (text ++ mark) rest) := by
  rw [cut?, h, cut?_append hmark htext]
  rfl

end MarkupPath.Text.Place

/-! ## Names -/

namespace MarkupPath.Markup.Name

open MarkupPath.Text

/-- The text is read whole as a name. -/
def IsWhole (name : List Char) : Prop := (read? (Place.start name)).map (·.1) = some name

instance : DecidablePred IsWhole := fun name =>
  inferInstanceAs (Decidable ((read? (Place.start name)).map (·.1) = some name))

variable {name : List Char}

theorem isWhole_iff : IsWhole name ↔
    (∃ c rest, name = c :: rest ∧ isStart c = true) ∧ ∀ c ∈ name, isPart c = true := by
  cases name with
  | nil => simp [IsWhole, read?, Place.start]
  | cons c rest =>
    rw [IsWhole, read?, Place.start]
    by_cases hc : isStart c = true
    · simp [hc, isPart_of_isStart hc, List.takeWhile_eq_self_iff]
    · simp [hc]

/-- A whole name is read where no character that could continue it stands behind it. -/
theorem IsWhole.read?_eq (h : IsWhole name) {p : Place} {rest : List Char}
    (hp : p.rest = name ++ rest) (hrest : ∀ c ∈ rest.head?, isPart c = false) :
    read? p = some (name, p.past name rest) := by
  obtain ⟨⟨c, tail, rfl, hc⟩, hparts⟩ := isWhole_iff.1 h
  have htake : p.rest.takeWhile isPart = c :: tail := by rw [hp, takeWhile_append_stop hparts hrest]
  have hdrop : p.rest.dropWhile isPart = rest := by rw [hp, dropWhile_append_stop hparts hrest]
  rw [read?, Place.skipWhile, htake, hdrop, hp]
  exact if_pos hc

theorem isWhole_of_read? {p q : Place} {name : List Char} (h : read? p = some (name, q)) :
    IsWhole name := by
  rw [read?] at h
  split at h
  · cases h
  · next c rest hrest =>
    split at h
    · next hc =>
      cases h
      refine isWhole_iff.2 ⟨⟨c, rest.takeWhile isPart, ?_, hc⟩, fun d hd => ?_⟩
      · rw [hrest, List.takeWhile_cons_of_pos (isPart_of_isStart hc)]
      · exact List.mem_takeWhile_imp hd
    · cases h

/-- A name that is read is whole, and nothing follows that could continue it. -/
theorem whole_of_read? {p q : Place} {name : List Char} (h : read? p = some (name, q)) :
    IsWhole name ∧ p.Before name q ∧ ∀ c ∈ q.rest.head?, isPart c = false := by
  refine ⟨isWhole_of_read? h, before_of_read? h, fun c hc => ?_⟩
  rw [read?] at h
  split at h
  · cases h
  · split at h
    · cases h
      have hstop := List.head?_dropWhile_not isPart p.rest
      have hhead : (p.rest.dropWhile isPart).head? = some c := hc
      rwa [hhead] at hstop
    · cases h

/-- A blank is no part of a name. -/
theorem not_isPart_of_isMarkupBlank {c : Char} (h : isMarkupBlank c = true) :
    isPart c = false := by
  simp only [isMarkupBlank, Bool.or_eq_true, beq_iff_eq] at h
  rcases h with ((rfl | rfl) | rfl) | rfl <;> decide

/-- No character of a name is a mark of a tag. -/
theorem ne_of_isPart {c : Char} (h : isPart c = true) :
    c ≠ '>' ∧ c ≠ '"' ∧ c ≠ '\'' ∧ c ≠ '=' ∧ c ≠ ' ' := by
  refine ⟨?_, ?_, ?_, ?_, ?_⟩ <;> (rintro rfl; exact absurd h (by decide))

theorem not_isMarkupBlank {c : Char} (h : isStart c = true) : isMarkupBlank c = false := by
  cases hblank : isMarkupBlank c with
  | false => rfl
  | true =>
    simp only [isMarkupBlank, Bool.or_eq_true, beq_iff_eq] at hblank
    rcases hblank with ((rfl | rfl) | rfl) | rfl <;> exact absurd h (by decide)

theorem ne_of_isStart {c : Char} (h : isStart c = true) : c ≠ '!' ∧ c ≠ '?' ∧ c ≠ '/' := by
  refine ⟨?_, ?_, ?_⟩ <;> (rintro rfl; exact absurd h (by decide))

end MarkupPath.Markup.Name
