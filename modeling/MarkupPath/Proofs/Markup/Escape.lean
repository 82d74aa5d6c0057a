import MarkupPath.Markup.Reference
import MarkupPath.Proofs.Text.Cut

/-!
# Escaped texts are read back

Escaping writes a text without the characters that would end it: no `<` in either form, and no
double quote in an attribute value. Replacing the references of an escaped text gives the text
(`expand_escapeText`, `expand_escapeAttribute`).
-/

set_option autoImplicit false

namespace MarkupPath.Markup.Reference

open MarkupPath.Text

/-! ## References by name -/

/-- The reference to a named character. -/
def reference (name : String) : List Char := '&' :: name.toList ++ [';']

/-- What stands for a character is a reference to it, or the character itself. -/
theorem escapeTextChar_cases (c : Char) :
    (∃ name, (name, c) ∈ named ∧ escapeTextChar c = reference name) ∨
      (escapeTextChar c = [c] ∧ c ≠ '<' ∧ c ≠ '>' ∧ c ≠ '&') := by
  rw [escapeTextChar]
  split
  · next h => exact .inl ⟨"lt", eq_of_beq h ▸ by decide, rfl⟩
  · next hlt =>
    split
    · next h => exact .inl ⟨"gt", eq_of_beq h ▸ by decide, rfl⟩
    · next hgt =>
      split
      · next h => exact .inl ⟨"amp", eq_of_beq h ▸ by decide, rfl⟩
      · next hamp => exact .inr ⟨rfl, by simpa using hlt, by simpa using hgt, by simpa using hamp⟩

theorem escapeAttributeChar_cases (c : Char) :
    (∃ name, (name, c) ∈ named ∧ escapeAttributeChar c = reference name) ∨
      (escapeAttributeChar c = [c] ∧ c ≠ '<' ∧ c ≠ '&' ∧ c ≠ '"') := by
  rw [escapeAttributeChar]
  split
  · next h => exact .inl ⟨"quot", eq_of_beq h ▸ by decide, rfl⟩
  · next hquote =>
    rcases escapeTextChar_cases c with hname | ⟨hself, hlt, -, hamp⟩
    · exact .inl hname
    · exact .inr ⟨hself, hlt, hamp, by simpa using hquote⟩

/-! ## What an escaped text does not hold -/

theorem ne_of_mem_reference {name : String} {c d : Char} (hname : (name, c) ∈ named)
    (hd : d ∈ reference name) : d ≠ '<' ∧ d ≠ '"' := by
  have hall :
      (named.all fun entry => (reference entry.1).all fun d => d != '<' && d != '"') = true := by
    decide
  have hentry := List.all_eq_true.1 hall _ hname
  simpa using List.all_eq_true.1 hentry d hd

theorem ne_of_mem_escapeText {text : List Char} {d : Char} (h : d ∈ escapeText text) : d ≠ '<' := by
  obtain ⟨c, -, hc⟩ := List.mem_flatMap.1 h
  rcases escapeTextChar_cases c with ⟨name, hname, heq⟩ | ⟨heq, hlt, -⟩
  · exact (ne_of_mem_reference hname (heq ▸ hc)).1
  · rw [heq, List.mem_singleton] at hc
    exact hc ▸ hlt

theorem ne_of_mem_escapeAttribute {text : List Char} {d : Char} (h : d ∈ escapeAttribute text) :
    d ≠ '<' ∧ d ≠ '"' := by
  obtain ⟨c, -, hc⟩ := List.mem_flatMap.1 h
  rcases escapeAttributeChar_cases c with ⟨name, hname, heq⟩ | ⟨heq, hlt, -, hquote⟩
  · exact ne_of_mem_reference hname (heq ▸ hc)
  · rw [heq, List.mem_singleton] at hc
    exact hc ▸ ⟨hlt, hquote⟩

/-! ## Reading references back -/

/-- Expanding what stands for a character in a text gives the character. -/
def StandsFor (written : List Char) (c : Char) : Prop :=
  ∀ rest, expand (written ++ rest) = c :: expand rest

theorem standsFor_self {c : Char} (h : c ≠ '&') : StandsFor [c] c := by
  intro rest
  rw [List.singleton_append, expand, if_neg (by simpa using h)]

theorem standsFor_reference {name : String} {c : Char} (hname : (name, c) ∈ named) :
    StandsFor (reference name) c := by
  intro rest
  have hplain : ∀ entry ∈ named, ';' ∉ entry.1.toList ∧ charOf? entry.1.toList = some entry.2 := by
    decide
  obtain ⟨hmark, hchar⟩ := hplain _ hname
  have hcut : cut? [';'] (name.toList ++ [';'] ++ rest) = some (name.toList, rest) :=
    cut?_append (by decide) (by rwa [List.singleton_infix_iff]) rest
  have hread : read? (name.toList ++ [';'] ++ rest) = some (c, rest) := by
    rw [read?, hcut]
    simp only [hchar, Option.map_some]
  rw [reference, List.cons_append, List.cons_append, expand, if_pos (by rfl)]
  split
  · next found after hfound =>
    rw [hread] at hfound
    cases hfound
    rfl
  · next hfound =>
    rw [hread] at hfound
    cases hfound

theorem standsFor_escapeTextChar (c : Char) : StandsFor (escapeTextChar c) c := by
  rcases escapeTextChar_cases c with ⟨name, hname, heq⟩ | ⟨heq, -, -, hamp⟩
  · exact heq ▸ standsFor_reference hname
  · exact heq ▸ standsFor_self hamp

theorem standsFor_escapeAttributeChar (c : Char) : StandsFor (escapeAttributeChar c) c := by
  rcases escapeAttributeChar_cases c with ⟨name, hname, heq⟩ | ⟨heq, -, hamp, -⟩
  · exact heq ▸ standsFor_reference hname
  · exact heq ▸ standsFor_self hamp

/-- A text whose characters are written one by one is expanded one by one. -/
theorem expand_flatMap {write : Char → List Char} (h : ∀ c, StandsFor (write c) c)
    (text : List Char) : expand (text.flatMap write) = text := by
  induction text with
  | nil => rw [List.flatMap_nil, expand]
  | cons c text ih => rw [List.flatMap_cons, h c, ih]

theorem expand_escapeText (text : List Char) : expand (escapeText text) = text :=
  expand_flatMap standsFor_escapeTextChar text

theorem expand_escapeAttribute (text : List Char) : expand (escapeAttribute text) = text :=
  expand_flatMap standsFor_escapeAttributeChar text

@[simp] theorem escapeText_nil : escapeText [] = [] := rfl

theorem escapeText_append (text more : List Char) :
    escapeText (text ++ more) = escapeText text ++ escapeText more := List.flatMap_append

/-- Only the empty text is written as nothing. -/
theorem escapeText_eq_nil_iff {text : List Char} : escapeText text = [] ↔ text = [] := by
  constructor
  · intro h
    rw [← expand_escapeText text, h, expand]
  · rintro rfl
    rfl

end MarkupPath.Markup.Reference
