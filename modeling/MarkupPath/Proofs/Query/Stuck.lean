import MarkupPath.Proofs.Query.Spacing
import Mathlib.Logic.Relation

/-!
# Where the lexer stops

The lexer gives up at a text that starts with no lexeme. `Stuck` lists these texts, each with the
fault that its first character is reported with, and `Stuck.not_prefix` says that indeed no lexeme
stands there. Before it gives up the lexer has read one token after another (`Lexer.Passes`), and
its offset is the number of characters that it has taken (`Lexer.exists_taken_of_passes`). So the
offset of the fault is that of the first place where no token can be read
(`exists_stuck_of_tokensFrom`).
-/

set_option autoImplicit false

namespace MarkupPath.Query

open MarkupPath.Text MarkupPath.Number

/-! ## Texts that start with no lexeme -/

/-- The text starts neither with a blank nor with a lexeme, and this is the fault of it: a character
that starts none, an exclamation mark without the rest of its sign, or a string without end. -/
inductive Stuck : SyntaxFault → List Char → Prop where
  | character {c : Char} {rest : List Char} (hblank : isBlank c = false)
      (hdigit : c.isDigit = false) (hquote : c ≠ '"' ∧ c ≠ '\'') (hname : isNameStart c = false)
      (hsign : ∀ s ∈ signs, s.spelling.toList.head? ≠ some c) : Stuck (.character c) (c :: rest)
  | exclamation {rest : List Char} (h : rest.head? ≠ some '=') :
      Stuck (.character '!') ('!' :: rest)
  | openString {mark : Char} {rest : List Char} (hmark : mark = '"' ∨ mark = '\'')
      (hopen : mark ∉ rest) : Stuck .openString (mark :: rest)

/-- A numeral starts with a digit or with its point. -/
theorem IsNumeral.exists_eq_cons {numeral : List Char} {stops : Char → Bool}
    (h : IsNumeral numeral stops) :
    ∃ c cs, numeral = c :: cs ∧ (c.isDigit = true ∨ c = '.') := by
  cases h with
  | @whole digits hne hdigits =>
    obtain ⟨c, cs, rfl⟩ := List.exists_cons_of_ne_nil hne
    exact ⟨c, cs, rfl, .inl (hdigits c List.mem_cons_self)⟩
  | @pointed whole fraction _ hwhole _ =>
    cases whole with
    | nil => exact ⟨'.', fraction, rfl, .inr rfl⟩
    | cons c cs => exact ⟨c, _, rfl, .inl (hwhole c List.mem_cons_self)⟩

/-- What the first character of a lexeme says about it. A string has its first character once
more, as the closing mark. -/
inductive Starts (c : Char) (cs : List Char) : Prop where
  | numeral (h : c.isDigit = true ∨ c = '.')
  | string (hmark : c = '"' ∨ c = '\'') (hclose : c ∈ cs)
  | word (h : isNameStart c = true)
  | sign (s : Symbol) (h : s ∈ signs) (hspelling : s.spelling.toList = c :: cs)

theorem Reading.exists_starts {a d : Bool} {lexeme : List Char} {kind : TokenKind}
    {stops : Char → Bool} (h : Reading a d lexeme kind stops) :
    ∃ c cs, lexeme = c :: cs ∧ Starts c cs := by
  cases h with
  | number hnumeral =>
    obtain ⟨c, cs, rfl, hc⟩ := hnumeral.exists_eq_cons
    exact ⟨c, cs, rfl, .numeral hc⟩
  | string x => exact ⟨_, _, rfl, .string x.isQuote (List.mem_append_right _ List.mem_cons_self)⟩
  | word w => exact ⟨_, _, rfl, .word w.start⟩
  | @sign s hs =>
    obtain ⟨c, cs, hspelling, -⟩ := (Lexeme.symbol s).exists_chars_eq_cons
    exact ⟨c, cs, hspelling, .sign s hs hspelling⟩

/-- The only sign with an exclamation mark in front is `!=`, and none starts with a quotation
mark. -/
theorem sign_of_head {s : Symbol} (h : s ∈ signs) {c : Char} {cs : List Char}
    (hspelling : s.spelling.toList = c :: cs) :
    (c = '!' → cs = ['=']) ∧ c ≠ '"' ∧ c ≠ '\'' := by
  have hall : ∀ s ∈ signs, (s.spelling.toList.head? = some '!' → s.spelling.toList.tail = ['=']) ∧
      s.spelling.toList.head? ≠ some '"' ∧ s.spelling.toList.head? ≠ some '\'' := by decide
  have hs := hall s h
  rw [hspelling] at hs
  simpa using hs

/-- No lexeme stands at a place where the lexer is stuck. -/
theorem Stuck.not_prefix {fault : SyntaxFault} {text lexeme : List Char} {a d : Bool}
    {kind : TokenKind} {stops : Char → Bool} (h : Stuck fault text)
    (hreading : Reading a d lexeme kind stops) : ¬ lexeme <+: text := by
  intro hprefix
  obtain ⟨c, cs, rfl, hstarts⟩ := hreading.exists_starts
  cases h with
  | character _ hdigit hquote hname hsign =>
    obtain ⟨rfl, -⟩ := List.cons_prefix_cons.1 hprefix
    cases hstarts with
    | numeral h =>
      rcases h with h | rfl
      · exact Bool.eq_false_iff.1 hdigit h
      · exact hsign .dot (by decide) rfl
    | string hmark => exact hmark.elim hquote.1 hquote.2
    | word h => exact Bool.eq_false_iff.1 hname h
    | sign s hs hspelling => exact hsign s hs (by rw [hspelling, List.head?_cons])
  | exclamation hnext =>
    obtain ⟨rfl, hcs⟩ := List.cons_prefix_cons.1 hprefix
    cases hstarts with
    | numeral h => exact absurd h (by decide)
    | string hmark => exact absurd hmark (by decide)
    | word h => exact absurd h (by decide +kernel)
    | sign s hs hspelling =>
      -- it would be the sign `!=`
      rw [(sign_of_head hs hspelling).1 rfl] at hcs
      obtain ⟨tail, rfl⟩ := hcs
      exact hnext rfl
  | openString hmark hopen =>
    obtain ⟨rfl, hcs⟩ := List.cons_prefix_cons.1 hprefix
    cases hstarts with
    | numeral h => rcases hmark with rfl | rfl <;> exact absurd h (by decide)
    | string _ hclose => exact hopen (hcs.subset hclose)
    | word h => rcases hmark with rfl | rfl <;> exact absurd h (by decide +kernel)
    | sign s hs hspelling =>
      have hne := (sign_of_head hs hspelling).2
      exact hmark.elim hne.1 hne.2

/-! ## The faults of the lexer -/

/-- Besides the exclamation mark, every character that a sign starts with is a sign. -/
theorem exists_short_sign {s : Symbol} (h : s ∈ signs) {c : Char}
    (hhead : s.spelling.toList.head? = some c) :
    c = '!' ∨ ∃ t ∈ signs, t.spelling.toList = [c] := by
  have hall : ∀ s ∈ signs, s.spelling.toList.head? = some '!' ∨
      ∃ t ∈ signs, t.spelling.toList = s.spelling.toList.head?.toList := by decide
  have hs := hall s h
  rw [hhead] at hs
  simpa using hs

theorem after?_eq_none_of_sign? {text : List Char} (h : sign? text = none) {s : Symbol}
    (hs : s ∈ signs) : after? s.spelling.toList text = none := by
  have hnone := List.find?_eq_none.1 h s hs
  simpa using hnone

/-- What is none of the other lexemes and starts with no sign is stuck. -/
theorem stuck_of_sign? {c : Char} {rest : List Char} (hblank : isBlank c = false)
    (hnumeral : splitNumeral? (c :: rest) = none) (hquote : ¬(c == '"' || c == '\'') = true)
    (hname : ¬isNameStart c = true) (hsign : sign? (c :: rest) = none) :
    Stuck (.character c) (c :: rest) := by
  have hdigit : c.isDigit = false := by
    rw [Bool.eq_false_iff]
    intro hdigit
    simp only [splitNumeral?, splitDigits, List.takeWhile_cons_of_pos hdigit] at hnumeral
    split at hnumeral <;> simp at hnumeral
  by_cases hmark : c = '!'
  · subst hmark
    refine .exclamation fun hnext => ?_
    obtain ⟨tail, rfl⟩ := List.head?_eq_some_iff.1 hnext
    have hnone := after?_eq_none_of_sign? hsign (show Symbol.notEqual ∈ signs by decide)
    cases hnone
  · refine .character hblank hdigit (by simpa using hquote) (Bool.eq_false_iff.2 hname) ?_
    intro s hs hhead
    obtain h | ⟨t, ht, hspelling⟩ := exists_short_sign hs hhead
    · exact hmark h
    · have hnone := after?_eq_none_of_sign? hsign ht
      rw [hspelling] at hnone
      simp [after?] at hnone

namespace Lexer

variable {l l' : Lexer}

/-- Where the lexer reads no token it is stuck. -/
theorem stuck_of_scan {text : List Char} {fault : SyntaxFault} {count : Nat}
    (hfirst : ∀ c ∈ text.head?, isBlank c = false) (h : l.scan text = (.error fault, count)) :
    Stuck fault text := by
  unfold scan at h
  split at h
  · cases h
  · next c rest =>
    split at h
    · cases h
    · next hnumeral =>
      split at h
      · next hquote =>
        dsimp only at h
        split at h
        · cases h
        · next hlength =>
          cases h
          refine .openString (by simpa using hquote) fun hmem => hlength ?_
          -- a second mark ends the string before the end of the text
          by_contra hlength
          have hwhole := (List.takeWhile_prefix (· != c)).eq_of_length_le (Nat.le_of_not_lt hlength)
          have hother := List.all_eq_true.1 List.all_takeWhile c (hwhole.symm ▸ hmem)
          simp at hother
      · next hquote =>
        split at h
        · cases h
        · next hname =>
          split at h
          · cases h
          · next hsign =>
            cases h
            exact stuck_of_sign? (hfirst c rfl) hnumeral hquote hname hsign

theorem stuck_of_next {e : SyntaxError} (h : l.next = (.error e, l')) :
    e.offset = l.offset + l.gap.chars.length ∧ Stuck e.fault l.skipBlanks.rest := by
  have hfirst : ∀ c ∈ l.skipBlanks.rest.head?, isBlank c = false := by
    intro c hc
    have hend := List.head?_dropWhile_not isBlank l.rest
    rwa [show (l.rest.dropWhile isBlank).head? = some c from hc] at hend
  unfold next at h
  dsimp only at h
  split at h
  · cases h
  · cases h
  · next hscan =>
    cases h
    exact ⟨rfl, stuck_of_scan hfirst hscan⟩

/-! ## Runs of the lexer -/

/-- The lexer reads a token, not the end, and is behind it then. -/
def Passes (l l' : Lexer) : Prop := ∃ token, l.next = (.ok token, l') ∧ token.kind.isStop = false

/-- The lexer takes the characters of a token and the blanks before it off the text, and counts
them. -/
theorem Passes.exists_taken (h : l.Passes l') :
    ∃ taken, l.rest = taken ++ l'.rest ∧ l'.offset = l.offset + taken.length := by
  obtain ⟨token, hnext, hkind⟩ := h
  obtain ⟨lexeme, tail, stops, hrest, hreading, hstops⟩ := exists_reading_of_next hnext hkind
  obtain ⟨-, rfl⟩ := Prod.mk.inj ((next_of_reading hrest hreading hstops).symm.trans hnext)
  refine ⟨l.gap.chars ++ lexeme, ?_, ?_⟩
  · rw [List.append_assoc, ← hrest]
  · rw [List.length_append, Nat.add_assoc]

/-- So it does along every run. -/
theorem exists_taken_of_passes (h : Relation.ReflTransGen Passes l l') :
    ∃ taken, l.rest = taken ++ l'.rest ∧ l'.offset = l.offset + taken.length := by
  induction h with
  | refl => exact ⟨[], rfl, rfl⟩
  | tail _ hpasses ih =>
    obtain ⟨before, hbefore, hoffset⟩ := ih
    obtain ⟨taken, htaken, hoffset'⟩ := hpasses.exists_taken
    refine ⟨before ++ taken, ?_, ?_⟩
    · rw [List.append_assoc, ← htaken, ← hbefore]
    · rw [hoffset', hoffset, List.length_append, Nat.add_assoc]

end Lexer

/-- Where the lexer gives up, it has read one token after another and then blanks, and is stuck
behind them. -/
theorem exists_stuck_of_tokensFrom {l : Lexer} {e : SyntaxError} (h : tokensFrom l = .error e) :
    ∃ l', Relation.ReflTransGen Lexer.Passes l l' ∧
      e.offset = l'.offset + l'.gap.chars.length ∧ Stuck e.fault l'.skipBlanks.rest := by
  fun_induction tokensFrom l with
  | case1 l fault l' hnext =>
    cases h
    exact ⟨l, .refl, Lexer.stuck_of_next hnext⟩
  | case2 => cases h
  | case3 l token l' hnext hstop fault hlater ih =>
    cases h
    obtain ⟨l₂, hpasses, hstuck⟩ := ih hlater
    exact ⟨l₂, .head ⟨token, hnext, Bool.eq_false_iff.2 hstop⟩ hpasses, hstuck⟩
  | case4 => cases h

/-- The offset of a fault of the lexer is that of the first place where no token can be read: before
it stand tokens and blanks, and no lexeme stands there. -/
theorem exists_stuck_of_tokens {text : List Char} {e : SyntaxError} (h : tokens text = .error e) :
    ∃ l, Relation.ReflTransGen Lexer.Passes (Lexer.start text) l ∧
      l.rest = l.gap.chars ++ text.drop e.offset ∧ e.offset ≤ text.length ∧
      Stuck e.fault (text.drop e.offset) := by
  obtain ⟨l, hpasses, hoffset, hstuck⟩ := exists_stuck_of_tokensFrom h
  obtain ⟨taken, htext, hcount⟩ := Lexer.exists_taken_of_passes hpasses
  have hzero : (Lexer.start text).offset = 0 := rfl
  have hplace : text = (taken ++ l.gap.chars) ++ l.skipBlanks.rest := by
    rw [List.append_assoc, ← Lexer.rest_eq, ← htext]
    rfl
  have hlength : e.offset = (taken ++ l.gap.chars).length := by
    rw [hoffset, hcount, hzero, Nat.zero_add, List.length_append]
  have hdrop : text.drop e.offset = l.skipBlanks.rest := by
    rw [hlength]
    nth_rewrite 1 [hplace]
    exact List.drop_left
  refine ⟨l, hpasses, ?_, ?_, ?_⟩
  · rw [hdrop, ← Lexer.rest_eq]
  · have hprefix : taken ++ l.gap.chars <+: text := ⟨_, hplace.symm⟩
    rw [hlength]
    exact hprefix.length_le
  · rw [hdrop]
    exact hstuck

end MarkupPath.Query
