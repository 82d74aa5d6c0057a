import MarkupPath.Proofs.Query.Lexing

/-!
# What the lexer reads as one token

`Reading` lists the lexemes that the lexer reads, each with its token and with the characters that
it may stand before. The lexer reads a token if and only if the text starts with such a lexeme
(`exists_reading_of_scan`, `Reading.scan`), so of the text behind a lexeme nothing counts but
whether its first character goes on with the lexeme. No blank does (`Reading.stops_of_isBlank`).
-/

set_option autoImplicit false

namespace MarkupPath.Query

open MarkupPath.Text MarkupPath.Number

/-- The lexemes that are read behind a token with the two facts that the lexer keeps, with their
tokens, and with the characters before which they end. -/
inductive Reading (afterOperand stepDue : Bool) :
    List Char → TokenKind → (Char → Bool) → Prop where
  | number {numeral : List Char} {stops : Char → Bool} (h : IsNumeral numeral stops) :
      Reading afterOperand stepDue numeral (.number (numeralValue numeral).toFloat) stops
  | string (x : Literal) :
      Reading afterOperand stepDue (Lexeme.string x).chars (.string x.text) fun _ => true
  | word (w : Word) :
      Reading afterOperand stepDue w.chars
        (Lexer.wordKind ⟨[], 0, afterOperand, stepDue⟩ w.chars) fun c => !isNamePart c
  | sign {s : Symbol} (h : s ∈ signs) :
      Reading afterOperand stepDue (Lexeme.symbol s).chars (.symbol s) (Lexeme.symbol s).stopsAt

theorem fits_of_mem_signs {s : Symbol} (h : s ∈ signs) {a d : Bool} :
    (Lexeme.symbol s).Fits a d := by
  have hsigns : ∀ s ∈ signs, s ≠ .not ∧ s ∉ wordOperators := by decide
  exact Lexeme.fits_sign (hsigns s h)

theorem Lexer.isStop_wordKind (l : Lexer) (word : List Char) :
    (l.wordKind word).isStop = false := by
  unfold wordKind
  split
  · rfl
  · split <;> rfl

/-! ## The lexer reads these lexemes -/

namespace Reading

variable {lexeme tail : List Char} {kind : TokenKind} {stops : Char → Bool}

theorem scan {l : Lexer} (h : Reading l.afterOperand l.stepDue lexeme kind stops)
    (htail : ∀ c ∈ tail.head?, stops c = true) :
    l.scan (lexeme ++ tail) = (.ok kind, lexeme.length) := by
  cases h with
  | number h => exact l.scan_numeral h htail
  | string x => exact l.scan_string x
  | word w => exact l.scan_word w (by simpa using htail)
  | sign h => exact l.scan_symbol (fits_of_mem_signs h) htail

/-! ## Where these lexemes start and end -/

variable {a d : Bool} (h : Reading a d lexeme kind stops)
include h

/-- Every lexeme ends before a blank. -/
theorem stops_of_isBlank {c : Char} (hc : isBlank c = true) : stops c = true := by
  cases h with
  | number h =>
    have hdigit := isDigit_of_isBlank hc
    have hpoint : c ≠ '.' := ne_of_isBlank hc rfl
    cases h with
    | whole => simp [hdigit, hpoint]
    | pointed => simp [hdigit]
  | string => rfl
  | word w => exact (Lexeme.name w).stopsAt_of_isBlank hc
  | sign => exact (Lexeme.symbol _).stopsAt_of_isBlank hc

theorem isStop_eq_false : kind.isStop = false := by
  cases h with
  | word w => exact Lexer.isStop_wordKind _ _
  | _ => rfl

/-- A lexeme starts with a character that is no blank. -/
theorem exists_eq_cons : ∃ c cs, lexeme = c :: cs ∧ isBlank c = false := by
  cases h with
  | string x => exact (Lexeme.string x).exists_chars_eq_cons
  | word w => exact (Lexeme.name w).exists_chars_eq_cons
  | sign => exact (Lexeme.symbol _).exists_chars_eq_cons
  | number h =>
    cases h with
    | @whole digits hne hdigits =>
      obtain ⟨c, cs, rfl⟩ := List.exists_cons_of_ne_nil hne
      exact ⟨c, cs, rfl, isBlank_of_isDigit (hdigits c List.mem_cons_self)⟩
    | @pointed whole fraction _ hwhole _ =>
      cases whole with
      | nil => exact ⟨'.', fraction, rfl, by decide⟩
      | cons c cs => exact ⟨c, _, rfl, isBlank_of_isDigit (hwhole c List.mem_cons_self)⟩

/-- A lexeme ends with a character that is no blank. -/
theorem isBlank_of_getLast? {c : Char} (hc : c ∈ lexeme.getLast?) : isBlank c = false := by
  have hmem : c ∈ lexeme := List.mem_of_getLast? hc
  cases h with
  | number h =>
    cases h with
    | whole _ hdigits => exact isBlank_of_isDigit (hdigits c hmem)
    | @pointed whole fraction _ hwhole hfraction =>
      rcases List.mem_append.1 hmem with hmem | hmem
      · exact isBlank_of_isDigit (hwhole c hmem)
      · rcases List.mem_cons.1 hmem with rfl | hmem
        · decide
        · exact isBlank_of_isDigit (hfraction c hmem)
  | string x =>
    -- the closing mark
    rw [Lexeme.chars, List.getLast?_concat] at hc
    cases hc
    rcases x.isQuote with h | h <;> rw [h] <;> decide
  | word w =>
    rw [Bool.eq_false_iff]
    intro hblank
    exact Bool.eq_false_iff.1 (isNamePart_of_isBlank hblank) (w.isNamePart_of_mem hmem)
  | @sign s _ =>
    have hall : (s.spelling.toList.all fun c => !isBlank c) = true := by cases s <;> rfl
    have hc := List.all_eq_true.1 hall c hmem
    simpa using hc

end Reading

/-! ## And no others -/

/-- Where no numeral starts, a point has no digit behind it. -/
theorem isDigit_of_splitNumeral?_eq_none {c : Char} {rest : List Char}
    (h : splitNumeral? ('.' :: c :: rest) = none) : c.isDigit = false := by
  rw [Bool.eq_false_iff]
  intro hdigit
  simp [splitNumeral?, splitDigits, hdigit] at h

theorem exists_append_of_sign? {s : Symbol} {text : List Char} (h : sign? text = some s) :
    ∃ tail, text = (Lexeme.symbol s).chars ++ tail := by
  unfold sign? at h
  have hafter := List.find?_some h
  obtain ⟨tail, htail⟩ := Option.isSome_iff_exists.1 hafter
  exact ⟨tail, (append_of_after? htail).symm⟩

/-- The longest sign that starts a text does not go on with the character behind it. -/
theorem stopsAt_of_sign? {s : Symbol} {rest : List Char}
    (hnumeral : splitNumeral? ((Lexeme.symbol s).chars ++ rest) = none)
    (hsign : sign? ((Lexeme.symbol s).chars ++ rest) = some s) :
    ∀ c ∈ rest.head?, (Lexeme.symbol s).stopsAt c = true := by
  have hmem : s ∈ signs := List.mem_of_find?_eq_some hsign
  intro c hc
  obtain ⟨tail, rfl⟩ := List.head?_eq_some_iff.1 (Option.mem_def.1 hc)
  -- otherwise the longer sign, or the numeral, would have been read
  cases s with
  | slash =>
    have hne : c ≠ '/' := by
      rintro rfl
      cases hsign
    simpa [Lexeme.stopsAt] using hne
  | dot =>
    have hne : c ≠ '.' := by
      rintro rfl
      cases hsign
    have hdigit : c.isDigit = false := isDigit_of_splitNumeral?_eq_none hnumeral
    simpa [Lexeme.stopsAt, hdigit] using hne
  | less =>
    have hne : c ≠ '=' := by
      rintro rfl
      cases hsign
    simpa [Lexeme.stopsAt] using hne
  | greater =>
    have hne : c ≠ '=' := by
      rintro rfl
      cases hsign
    simpa [Lexeme.stopsAt] using hne
  | and | or | not | mod | div => simp [signs] at hmem
  | _ => rfl

/-- A text that starts with a quotation mark and has it once more starts with a string. -/
theorem exists_literal {mark : Char} {rest : List Char}
    (hquote : (mark == '"' || mark == '\'') = true)
    (hlength : (rest.takeWhile (· != mark)).length < rest.length) :
    ∃ (x : Literal) (tail : List Char), x.value = rest.takeWhile (· != mark) ∧
      mark :: rest = (Lexeme.string x).chars ++ tail := by
  have hmark : mark = '"' ∨ mark = '\'' := by simpa using hquote
  have habsent : mark ∉ rest.takeWhile (· != mark) := by
    intro hmem
    simpa using List.all_eq_true.1 List.all_takeWhile mark hmem
  refine ⟨⟨mark, _, hmark, habsent⟩, (rest.dropWhile (· != mark)).tail, rfl, ?_⟩
  -- the run ends before the text does, so it ends at the mark
  have hsplit := List.takeWhile_append_dropWhile (p := (· != mark)) (l := rest)
  have hend := List.head?_dropWhile_not (· != mark) rest
  cases hdrop : rest.dropWhile (· != mark) with
  | nil =>
    rw [hdrop, List.append_nil] at hsplit
    rw [hsplit] at hlength
    exact absurd hlength (Nat.lt_irrefl _)
  | cons c tail =>
    rw [hdrop] at hsplit hend
    have hc : c = mark := by simpa using hend
    rw [hc] at hsplit
    simp [Lexeme.chars, hsplit]

/-- The end is read at the end alone. -/
theorem eq_nil_of_scan {l : Lexer} {text : List Char} {kind : TokenKind} {count : Nat}
    (h : l.scan text = (.ok kind, count)) (hk : kind.isStop = true) : text = [] := by
  unfold Lexer.scan at h
  split at h
  · rfl
  · split at h
    · cases h
      cases hk
    · split at h
      · dsimp only at h
        split at h
        · cases h
          cases hk
        · cases h
      · split at h
        · cases h
          rw [Lexer.isStop_wordKind] at hk
          cases hk
        · split at h
          · cases h
            cases hk
          · cases h

theorem exists_reading_of_scan {l : Lexer} {text : List Char} {kind : TokenKind} {count : Nat}
    (h : l.scan text = (.ok kind, count)) (hk : kind.isStop = false) :
    ∃ lexeme tail stops, text = lexeme ++ tail ∧ lexeme.length = count ∧
      Reading l.afterOperand l.stepDue lexeme kind stops ∧ ∀ c ∈ tail.head?, stops c = true := by
  unfold Lexer.scan at h
  split at h
  · cases h
    cases hk
  · next c rest =>
    split at h
    · next numeral tail hnumeral =>
      cases h
      obtain ⟨htext, stops, hform, hstops⟩ := isNumeral_of_splitNumeral? hnumeral
      exact ⟨numeral, tail, stops, htext, rfl, .number hform, hstops⟩
    · next hnumeral =>
      split at h
      · next hquote =>
        dsimp only at h
        split at h
        · next hlength =>
          cases h
          obtain ⟨x, tail, hvalue, htext⟩ := exists_literal hquote hlength
          rw [← hvalue]
          exact ⟨_, tail, _, htext, by simp [Lexeme.chars], .string x, fun _ _ => rfl⟩
        · cases h
      · split at h
        · next hstart =>
          cases h
          have hpart := isNamePart_of_isNameStart hstart
          let w : Word := ⟨c, rest.takeWhile isNamePart, hstart, List.all_takeWhile⟩
          have hword : (c :: rest).takeWhile isNamePart = w.chars :=
            List.takeWhile_cons_of_pos hpart
          have htext : c :: rest = w.chars ++ (c :: rest).dropWhile isNamePart := by
            rw [← hword, List.takeWhile_append_dropWhile]
          rw [hword]
          refine ⟨_, _, _, htext, rfl, .word w, ?_⟩
          intro d hd
          have hend := List.head?_dropWhile_not isNamePart (c :: rest)
          rw [Option.mem_def.1 hd] at hend
          simpa using hend
        · next hstart =>
          split at h
          · next s hsign =>
            cases h
            obtain ⟨tail, htext⟩ := exists_append_of_sign? hsign
            rw [htext] at hnumeral hsign
            exact ⟨_, tail, _, htext, rfl, .sign (List.mem_of_find?_eq_some hsign),
              stopsAt_of_sign? hnumeral hsign⟩
          · cases h

end MarkupPath.Query
