import MarkupPath.Text.Cut
import Mathlib.Data.List.Infix

/-!
# Cutting texts that are put together

A text that was put together is taken apart at the same places: a run of characters of a class ends
where another character stands (`takeWhile_append_stop`), and a mark that does not overlap itself is
found behind a text that does not hold it (`cut?_append`). What is cut off before a mark never holds
that mark (`not_infix_of_cut?`).
-/

set_option autoImplicit false

namespace MarkupPath.Text

/-! ## Runs of characters -/

section Runs

variable {p : Char → Bool} {cs tail : List Char}

theorem takeWhile_append_stop (hcs : ∀ c ∈ cs, p c = true)
    (htail : ∀ c ∈ tail.head?, p c = false) : (cs ++ tail).takeWhile p = cs := by
  rw [List.takeWhile_append_of_pos hcs]
  cases tail with
  | nil => simp
  | cons c tail => simp [htail c (by simp)]

theorem dropWhile_append_stop (hcs : ∀ c ∈ cs, p c = true)
    (htail : ∀ c ∈ tail.head?, p c = false) : (cs ++ tail).dropWhile p = tail := by
  rw [List.dropWhile_append_of_pos hcs]
  cases tail with
  | nil => simp
  | cons c tail => simp [htail c (by simp)]

end Runs

/-! ## Marks -/

variable {mark : List Char}

@[simp] theorem after?_append (mark rest : List Char) : after? mark (mark ++ rest) = some rest := by
  induction mark with
  | nil => rfl
  | cons m mark ih => simp [after?, ih]

/-- The mark is not empty, and no end of it is also its beginning. -/
def Unbordered (mark : List Char) : Prop :=
  mark ≠ [] ∧ ∀ u ∈ mark.tails, u ≠ [] → u <+: mark → u = mark

instance : DecidablePred Unbordered := fun mark =>
  inferInstanceAs (Decidable (mark ≠ [] ∧ ∀ u ∈ mark.tails, u ≠ [] → u <+: mark → u = mark))

/-- A mark does not begin in a text without it that it stands behind. -/
theorem after?_eq_none_of_not_infix (hmark : Unbordered mark) {body : List Char} (hne : body ≠ [])
    (hbody : ¬ mark <:+: body) (rest : List Char) : after? mark (body ++ mark ++ rest) = none := by
  cases hafter : after? mark (body ++ mark ++ rest) with
  | none => rfl
  | some after =>
    have heq := append_of_after? hafter
    rw [List.append_assoc] at heq
    rcases List.append_eq_append_iff.1 heq with ⟨u, hu, -⟩ | ⟨u, hu, hrest⟩
    · exact absurd ⟨[], u, by rw [List.nil_append, hu]⟩ hbody
    · -- the mark would end with a beginning of itself
      by_cases hempty : u = []
      · rw [hempty, List.append_nil] at hu
        exact absurd ⟨[], [], by rw [List.nil_append, List.append_nil, hu]⟩ hbody
      · have hlength : u.length ≤ mark.length := by
          rw [hu, List.length_append]
          exact Nat.le_add_left _ _
        have hsuffix : u <:+ mark := ⟨body, hu.symm⟩
        have hprefix : u <+: mark :=
          List.prefix_of_prefix_length_le ⟨after, hrest.symm⟩ (List.prefix_append mark rest) hlength
        have hwhole := hmark.2 u ((List.mem_tails u mark).2 hsuffix) hempty hprefix
        rw [hwhole] at hu
        exact absurd (List.self_eq_append_left.1 hu) hne

/-- A mark that does not overlap itself is found where it stands behind a text without it. -/
theorem cut?_append (hmark : Unbordered mark) {body : List Char} (hbody : ¬ mark <:+: body)
    (rest : List Char) : cut? mark (body ++ mark ++ rest) = some (body, rest) := by
  induction body with
  | nil =>
    have hafter := after?_append mark rest
    cases mark with
    | nil => exact absurd rfl hmark.1
    | cons m mark =>
      rw [List.nil_append, List.cons_append] at *
      rw [cut?, hafter]
  | cons c body ih =>
    have hnone := after?_eq_none_of_not_infix hmark (List.cons_ne_nil c body) hbody rest
    have hlater : ¬ mark <:+: body := fun h => hbody (h.trans (List.suffix_cons c body).isInfix)
    rw [List.cons_append, List.cons_append] at *
    rw [cut?, hnone]
    simp only [ih hlater, Option.map_some]

/-- The text before the first occurrence of a mark does not hold the mark. -/
theorem not_infix_of_cut? (hmark : mark ≠ []) {text before after : List Char}
    (h : cut? mark text = some (before, after)) : ¬ mark <:+: before := by
  induction text generalizing before after with
  | nil =>
    rw [cut?, if_neg (by simpa using hmark)] at h
    cases h
  | cons c rest ih =>
    have hwhole := append_of_cut? h
    rw [cut?] at h
    split at h
    · cases h
      exact fun hinfix => hmark (List.eq_nil_of_infix_nil hinfix)
    · next hnone =>
      obtain ⟨⟨first, second⟩, hcut, hpair⟩ := Option.map_eq_some_iff.1 h
      cases hpair
      intro hinfix
      rcases List.infix_cons_iff.1 hinfix with ⟨tail, htail⟩ | hlater
      · -- the mark would stand at the front of the whole text
        rw [← hwhole, ← htail, List.append_assoc, List.append_assoc, after?_append] at hnone
        cases hnone
      · exact ih hcut hlater

end MarkupPath.Text
