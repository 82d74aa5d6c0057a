import MarkupPath.Markup.Writer
import MarkupPath.Proofs.Markup.AttributeList

/-!
# Writing bytes is escaping characters

The writer copies slices between the bytes that it replaces. All of these are between characters, so
it never panics, and what it writes is the escaped text (`ends_escape`). No reference that it writes
is part of another, and none is made up with characters that are copied: the reader gives the text
back, whatever the text looks like (`escapes`).
-/

set_option autoImplicit false

namespace MarkupPath.Markup

open MarkupPath.Text

/-! ## What stands for a character -/

namespace Reference

/-- What stands for a character in an attribute value or else in content. -/
def escapeChar (quotes : Bool) (c : Char) : List Char :=
  if quotes then escapeAttributeChar c else escapeTextChar c

/-- The names of the references that escaping writes. -/
def writtenNames : List String := ["lt", "gt", "amp", "quot"]

/-- The characters that are replaced. -/
def isEscaped (quotes : Bool) (c : Char) : Bool :=
  c == '<' || c == '>' || c == '&' || (c == '"' && quotes)

theorem isEscaped_cases {quotes : Bool} {c : Char} (h : isEscaped quotes c = true) :
    c = '<' ∨ c = '>' ∨ c = '&' ∨ (c = '"' ∧ quotes = true) := by
  simpa [isEscaped, or_assoc] using h

/-- A character is replaced by a reference, or stands for itself. -/
theorem escapeChar_cases (quotes : Bool) (c : Char) :
    (∃ name ∈ writtenNames, isEscaped quotes c = true ∧ escapeChar quotes c = reference name) ∨
      (isEscaped quotes c = false ∧ escapeChar quotes c = [c]) := by
  cases h : isEscaped quotes c with
  | true =>
    left
    rcases isEscaped_cases h with rfl | rfl | rfl | ⟨rfl, rfl⟩
    · exact ⟨"lt", by decide, rfl, by cases quotes <;> rfl⟩
    · exact ⟨"gt", by decide, rfl, by cases quotes <;> rfl⟩
    · exact ⟨"amp", by decide, rfl, by cases quotes <;> rfl⟩
    · exact ⟨"quot", by decide, rfl, rfl⟩
  | false =>
    right
    simp only [isEscaped, Bool.or_eq_false_iff, Bool.and_eq_false_iff] at h
    obtain ⟨⟨⟨hlt, hgt⟩, hamp⟩, hquote⟩ := h
    have htext : escapeTextChar c = [c] := by
      simp only [escapeTextChar, hlt, hgt, hamp, Bool.false_eq_true, if_false]
    refine ⟨rfl, ?_⟩
    rcases hquote with hquote | rfl
    · cases quotes with
      | false => exact htext
      | true => simp only [escapeChar, escapeAttributeChar, hquote, htext, if_true,
          Bool.false_eq_true, if_false]
    · exact htext

theorem escapeChar_eq_self {quotes : Bool} {c : Char} (h : isEscaped quotes c = false) :
    escapeChar quotes c = [c] := by
  rcases escapeChar_cases quotes c with ⟨-, -, hother, -⟩ | ⟨-, hself⟩
  · rw [h] at hother
    cases hother
  · exact hself

theorem flatMap_escapeChar_eq_self {quotes : Bool} {text : List Char}
    (h : ∀ c ∈ text, isEscaped quotes c = false) : text.flatMap (escapeChar quotes) = text := by
  induction text with
  | nil => rfl
  | cons c text ih =>
    obtain ⟨hc, hlater⟩ := List.forall_mem_cons.1 h
    rw [List.flatMap_cons, escapeChar_eq_self hc, ih hlater, List.singleton_append]

theorem standsFor_escapeChar (quotes : Bool) (c : Char) : StandsFor (escapeChar quotes c) c := by
  cases quotes with
  | false => exact standsFor_escapeTextChar c
  | true => exact standsFor_escapeAttributeChar c

/-! ## What escaped texts hold -/

theorem written_names : ∀ name ∈ writtenNames, '&' ∉ name.toList ++ [';'] ∧
    '<' ∉ reference name ∧ '>' ∉ reference name ∧ '"' ∉ reference name := by
  decide

/-- What would be read as markup is not written. -/
theorem ne_of_mem_escape {quotes : Bool} {text : List Char} {d : Char}
    (h : d ∈ text.flatMap (escapeChar quotes)) :
    d ≠ '<' ∧ d ≠ '>' ∧ (quotes = true → d ≠ '"') := by
  obtain ⟨c, -, hd⟩ := List.mem_flatMap.1 h
  rcases escapeChar_cases quotes c with ⟨name, hname, -, heq⟩ | ⟨hself, heq⟩
  · rw [heq] at hd
    obtain ⟨hlt, hgt, hquote⟩ := (written_names name hname).2
    exact ⟨ne_of_mem_of_not_mem hd hlt, ne_of_mem_of_not_mem hd hgt,
      fun _ => ne_of_mem_of_not_mem hd hquote⟩
  · rw [heq, List.mem_singleton] at hd
    subst hd
    refine ⟨?_, ?_, ?_⟩
    · rintro rfl
      cases quotes <;> cases hself
    · rintro rfl
      cases quotes <;> cases hself
    · rintro rfl rfl
      cases hself

/-- With every ampersand a reference starts. -/
theorem exists_reference_of_ampersand {quotes : Bool} {text before after : List Char}
    (h : text.flatMap (escapeChar quotes) = before ++ '&' :: after) :
    ∃ name ∈ writtenNames, reference name <+: '&' :: after := by
  induction text generalizing before with
  | nil => simp at h
  | cons c text ih =>
    rw [List.flatMap_cons] at h
    rcases List.append_eq_append_iff.1 h with ⟨inside, -, hlater⟩ | ⟨inside, hhead, hlater⟩
    · -- it stands behind what is written for the first character
      exact ih hlater
    · cases inside with
      | nil => exact @ih [] hlater.symm
      | cons d inside =>
        obtain ⟨rfl, rfl⟩ := List.cons.inj hlater
        rcases escapeChar_cases quotes c with ⟨name, hname, -, heq⟩ | ⟨hself, heq⟩
        · refine ⟨name, hname, ?_⟩
          -- a reference has no ampersand but the first
          cases before with
          | nil =>
            refine ⟨text.flatMap (escapeChar quotes), ?_⟩
            rw [← heq, hhead]
            rfl
          | cons e before =>
            rw [heq, reference, List.cons_append, List.cons_append] at hhead
            have hmem : '&' ∈ name.toList ++ [';'] := by
              rw [(List.cons.inj hhead).2]
              exact List.mem_append_right _ List.mem_cons_self
            exact absurd hmem (written_names name hname).1
        · have hmem : '&' ∈ escapeChar quotes c := by
            rw [hhead]
            exact List.mem_append_right _ List.mem_cons_self
          rw [heq, List.mem_singleton] at hmem
          subst hmem
          cases quotes <;> cases hself

end Reference

/-! ## Bytes -/

namespace Writer

open Run Reference

variable {ε : Type} {quotes : Bool} {text : List Char} {p q : Place}

theorem isSome_replacement? (quotes : Bool) (b : UInt8) :
    (replacement? quotes b).isSome =
      (b == '<'.toUInt8 || b == '>'.toUInt8 || b == '&'.toUInt8 ||
        (b == '"'.toUInt8 && quotes)) := by
  simp only [replacement?]
  split_ifs with hlt hgt hamp hquote <;> simp_all

/-- Each byte of a character tells whether it is replaced. -/
theorem tells_replacement? (quotes : Bool) :
    Tells (fun b => (replacement? quotes b).isSome) (isEscaped quotes) := by
  have hquote : Tells (fun b => b == '"'.toUInt8 && quotes) (fun c => c == '"' && quotes) :=
    fun c b hb => congrArg (· && quotes) (tells_beq (by decide) c b hb)
  simp only [isSome_replacement?]
  exact (((tells_beq (by decide)).or (tells_beq (by decide))).or (tells_beq (by decide))).or hquote

/-- A character that is replaced is one byte, and what is written for it is what is written for the
byte. -/
theorem exists_replacement? {c : Char} (h : isEscaped quotes c = true) :
    c.toNat < 128 ∧ ∃ reference, replacement? quotes c.toUInt8 = some reference ∧
      reference.toList = escapeChar quotes c := by
  rcases isEscaped_cases h with rfl | rfl | rfl | ⟨rfl, rfl⟩
  · exact ⟨by decide, "&lt;", rfl, by cases quotes <;> rfl⟩
  · exact ⟨by decide, "&gt;", rfl, by cases quotes <;> rfl⟩
  · exact ⟨by decide, "&amp;", rfl, by cases quotes <;> rfl⟩
  · exact ⟨by decide, "&quot;", rfl, rfl⟩

/-- Bytes that are left alone are passed over. -/
theorem escapeFrom_append {bytes : List UInt8}
    (h : ∀ b ∈ bytes, (replacement? quotes b).isSome = false) (rest : List UInt8)
    (offset copied : Nat) :
    (escapeFrom quotes text (bytes ++ rest) offset copied : Run ε (List Char)) =
      escapeFrom quotes text rest (offset + bytes.length) copied := by
  induction bytes generalizing offset with
  | nil => rfl
  | cons b bytes ih =>
    obtain ⟨hb, hlater⟩ := List.forall_mem_cons.1 h
    have hnone : replacement? quotes b = none :=
      Option.not_isSome_iff_eq_none.1 (Bool.eq_false_iff.1 hb)
    rw [List.cons_append, escapeFrom, hnone]
    dsimp only
    rw [ih hlater, List.length_cons, Nat.add_assoc, Nat.add_comm 1]

/-- From a place on the writer escapes what is left. What it has passed over since the last
character that it replaced comes first. -/
theorem ends_escapeFrom {plain : List Char} (hq : q.In text) (hqp : q.Before plain p) :
    Ends (ε := ε) (escapeFrom quotes text (utf8 p.rest) p.offset q.offset)
      (.ok (plain ++ p.rest.flatMap (escapeChar quotes))) := by
  obtain ⟨offset, rest⟩ := p
  dsimp only
  induction rest generalizing offset q plain with
  | nil =>
    have hrest : q.rest = plain := hqp.1.trans (List.append_nil _)
    rw [utf8_nil, escapeFrom, List.flatMap_nil, List.append_nil, ← hrest]
    exact Reader.ends_slice_rest hq
  | cons c rest ih =>
    let behind : Place := ⟨offset + c.utf8Size, rest⟩
    have hbehind : Place.Before ⟨offset, c :: rest⟩ [c] behind := ⟨rfl, rfl⟩
    rw [List.flatMap_cons]
    cases hescaped : isEscaped quotes c with
    | true =>
      obtain ⟨hc, reference, hreference, hwritten⟩ := exists_replacement? hescaped
      have hlater := ih (hq.of_before (hqp.trans hbehind)) behind.offset (Place.before_refl behind)
      have hsize : behind.offset = offset + 1 := congrArg (offset + ·) (utf8Size_of_lt hc)
      rw [hsize, List.nil_append] at hlater
      rw [utf8_cons_of_lt hc, escapeFrom, hreference, ← hwritten]
      exact (Reader.ends_slice hq hqp).bind (hlater.bind (.pure _))
    | false =>
      have hnone : ∀ b ∈ String.utf8EncodeChar c, (replacement? quotes b).isSome = false :=
        fun b hb => (tells_replacement? quotes c b hb).trans hescaped
      have hlater := ih hq behind.offset (hqp.trans hbehind)
      rw [List.append_assoc] at hlater
      rw [utf8_cons, escapeFrom_append hnone, String.length_utf8EncodeChar,
        escapeChar_eq_self hescaped]
      exact hlater

/-- What the writer makes of a text is the escaped text. -/
theorem ends_escape (quotes : Bool) (text : List Char) :
    Ends (ε := ε) (escape quotes text) (.ok (text.flatMap (escapeChar quotes))) := by
  let plain := text.takeWhile fun c => !isEscaped quotes c
  let rest := text.dropWhile fun c => !isEscaped quotes c
  have hsplit : plain ++ rest = text := List.takeWhile_append_dropWhile
  have hplain : plain.flatMap (escapeChar quotes) = plain :=
    flatMap_escapeChar_eq_self fun c hc => by
      simpa using List.all_eq_true.1 List.all_takeWhile c hc
  have hfirst : ((utf8 text).findIdx? fun b => (replacement? quotes b).isSome) =
      rest.head?.map fun _ => byteLength plain :=
    findIdx?_utf8 (tells_replacement? quotes) text
  rw [escape, hfirst]
  cases hrest : rest with
  | nil =>
    -- no character is replaced
    rw [hrest, List.append_nil] at hsplit
    rw [← hsplit, hplain]
    exact .pure _
  | cons c later =>
    have hplace : (Place.start text).Before plain ⟨byteLength plain, rest⟩ :=
      ⟨hsplit.symm, (Nat.zero_add _).symm⟩
    have hdrop : (utf8 text).drop (byteLength plain) = utf8 rest := by
      rw [← hsplit, drop_utf8_append]
    have hends : Ends (ε := ε) (escapeFrom quotes text (utf8 rest) (byteLength plain) 0)
        (.ok (plain ++ rest.flatMap (escapeChar quotes))) :=
      ends_escapeFrom (Place.in_start text) hplace
    have hwhole : plain ++ rest.flatMap (escapeChar quotes) = text.flatMap (escapeChar quotes) := by
      nth_rewrite 1 [← hplain]
      rw [← List.flatMap_append, hsplit]
    rw [hwhole] at hends
    rw [List.head?_cons, Option.map_some]
    dsimp only
    rw [hdrop]
    exact hends

end Writer

/-! ## Whole texts -/

open Reference

/-- What is written for a text, in an attribute value or else in content. -/
structure Escapes (quotes : Bool) (text written : List Char) : Prop where
  /-- The writer makes this of the bytes of the text, without a panic. -/
  byBytes : (Writer.escape quotes text : Run Empty (List Char)).Ends (.ok written)
  /-- Replacing the references gives the text. -/
  expanded : expand written = text
  /-- The reader makes the text of the bytes of what is written. -/
  readBack : (Reader.expand written : Run Empty String).Ends (.ok (String.ofList text))
  /-- There is no markup in it. -/
  plain : ∀ c ∈ written, c ≠ '<' ∧ c ≠ '>' ∧ (quotes = true → c ≠ '"')
  /-- With every ampersand one of the four references starts. -/
  references : ∀ before after, written = before ++ '&' :: after →
    ∃ name ∈ writtenNames, reference name <+: '&' :: after

theorem escapes (quotes : Bool) (text : List Char) :
    Escapes quotes text (text.flatMap (escapeChar quotes)) where
  byBytes := Writer.ends_escape quotes text
  expanded := expand_flatMap (standsFor_escapeChar quotes) text
  readBack := by
    have hread := Reader.ends_expand (ε := Empty) (text.flatMap (escapeChar quotes))
    rwa [expand_flatMap (standsFor_escapeChar quotes) text] at hread
  plain _ hc := ne_of_mem_escape hc
  references _ _ h := exists_reference_of_ampersand h

/-- Every text comes back from its escaped forms, whatever it looks like: as content and as an
attribute value it is written without markup, and read as itself. -/
theorem escapes_content_and_value (text : List Char) :
    Escapes false text (escapeText text) ∧ Escapes true text (escapeAttribute text) :=
  ⟨escapes false text, escapes true text⟩

/-- A text that looks like references, with a semicolon far behind an ampersand. -/
example : escapeAttribute "&lt; & \"b\";".toList =
    "&amp;lt; &amp; &quot;b&quot;;".toList := by decide

end MarkupPath.Markup
