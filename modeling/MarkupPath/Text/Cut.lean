/-!
# Cutting texts

Texts are lists of characters. `byteLength` measures one in UTF-8 bytes, the unit of every position
in markup. `cut?` splits a text at the first occurrence of another text, and `after?` takes one off
its front; `append_of_cut?` and `append_of_after?` say that neither loses anything.
-/

set_option autoImplicit false

namespace MarkupPath.Text

/-- The number of bytes of the text in UTF-8. -/
def byteLength : List Char → Nat
  | [] => 0
  | c :: rest => c.utf8Size + byteLength rest

@[simp] theorem byteLength_nil : byteLength [] = 0 := rfl

@[simp] theorem byteLength_cons (c : Char) (rest : List Char) :
    byteLength (c :: rest) = c.utf8Size + byteLength rest := rfl

@[simp] theorem byteLength_append (first second : List Char) :
    byteLength (first ++ second) = byteLength first + byteLength second := by
  induction first with
  | nil => simp
  | cons c rest ih => simp [ih, Nat.add_assoc]

/-- The text behind `mark`, for a text that starts with it. -/
def after? : List Char → List Char → Option (List Char)
  | [], text => some text
  | _ :: _, [] => none
  | m :: mark, c :: text => if m == c then after? mark text else none

/-- The text before the first occurrence of `mark` and the text after that occurrence. -/
def cut? (mark : List Char) : List Char → Option (List Char × List Char)
  | [] => if mark.isEmpty then some ([], []) else none
  | c :: rest =>
      match after? mark (c :: rest) with
      | some after => some ([], after)
      | none => (cut? mark rest).map fun halves => (c :: halves.1, halves.2)

theorem append_of_after? {mark text after : List Char} (h : after? mark text = some after) :
    mark ++ after = text := by
  induction mark generalizing text with
  | nil => simpa [after?] using h.symm
  | cons m mark ih =>
      cases text with
      | nil => cases h
      | cons c text =>
          simp only [after?] at h
          split at h
          · next hc => simp [eq_of_beq hc, ih h]
          · cases h

theorem append_of_cut? {mark text before after : List Char}
    (h : cut? mark text = some (before, after)) : before ++ mark ++ after = text := by
  induction text generalizing before after with
  | nil =>
      simp only [cut?] at h
      split at h
      · next hm => simp_all
      · cases h
  | cons c rest ih =>
      simp only [cut?] at h
      split at h
      · next after' hp =>
          cases h
          simpa using append_of_after? hp
      · obtain ⟨⟨first, second⟩, hcut, hpair⟩ := Option.map_eq_some_iff.1 h
        cases hpair
        simpa using ih hcut

end MarkupPath.Text
