import MarkupPath.Proofs.Query.Phrase
import MarkupPath.Proofs.Text.Cut

/-!
# Reading lexemes back

A text writes lexemes if they stand in it one after another, with blanks at least where the next
character would go on with a lexeme (`Spells`). The lexer reads it as the tokens that they write,
provided that each one has there the meaning that it has in the list. `Leads` says so: it follows
the two facts that the lexer keeps about the token just read, and `Spells.kinds_of_tokens` is the
result. Numbers are read as long as they go on; `IsNumeral` says where that is.

`Phrase.leads` says that the lexemes of every phrase are read so where an operand is due.
-/

set_option autoImplicit false

namespace MarkupPath.Query

open MarkupPath.Text MarkupPath.Number

/-! ## Digits and numerals -/

theorem splitDigits_append {ds tail : List Char} (hds : ∀ c ∈ ds, c.isDigit = true)
    (htail : ∀ c ∈ tail.head?, c.isDigit = false) : splitDigits (ds ++ tail) = (ds, tail) := by
  rw [splitDigits, takeWhile_append_stop hds htail, dropWhile_append_stop hds htail]

theorem exists_digits {ds : List Char} (hne : ds ≠ []) (hds : ∀ c ∈ ds, c.isDigit = true) :
    ∃ d : Digits, d.chars = ds := by
  cases ds with
  | nil => exact absurd rfl hne
  | cons c cs =>
      refine ⟨⟨c, cs, hds c (by simp), ?_⟩, rfl⟩
      exact List.all_eq_true.2 fun x hx => hds x (List.mem_cons_of_mem _ hx)

/-- The characters are a numeral, and the whole one where a character of the class follows them, or
none. -/
inductive IsNumeral : List Char → (Char → Bool) → Prop where
  | whole {digits : List Char} (hne : digits ≠ []) (h : ∀ c ∈ digits, c.isDigit = true) :
      IsNumeral digits fun c => !c.isDigit && c != '.'
  | pointed {whole fraction : List Char} (hne : whole ≠ [] ∨ fraction ≠ [])
      (hwhole : ∀ c ∈ whole, c.isDigit = true) (hfraction : ∀ c ∈ fraction, c.isDigit = true) :
      IsNumeral (whole ++ '.' :: fraction) fun c => !c.isDigit

/-- A numeral is taken whole, and nothing behind it, if what follows is no part of a number. -/
theorem IsNumeral.splitNumeral? {numeral tail : List Char} {stops : Char → Bool}
    (h : IsNumeral numeral stops) (htail : ∀ c ∈ tail.head?, stops c = true) :
    splitNumeral? (numeral ++ tail) = some (numeral, tail) := by
  cases h with
  | whole hne hdigits =>
      have hend : ∀ c ∈ tail.head?, c.isDigit = false ∧ c ≠ '.' := by simpa using htail
      rw [Number.splitNumeral?, splitDigits_append hdigits fun c hc => (hend c hc).1]
      -- without a point behind them the digits are the whole number
      cases tail with
      | nil => simp [hne]
      | cons c tail =>
          have hc : c ≠ '.' := (hend c rfl).2
          simp [hne, hc]
  | @pointed whole fraction hne hwhole hfraction =>
      -- the point ends the digits before it, and the text behind the number those after it
      have hpoint : ∀ c ∈ ('.' :: (fraction ++ tail)).head?, c.isDigit = false := by simp
      have hstop : ∀ c ∈ tail.head?, c.isDigit = false := by simpa using htail
      rw [Number.splitNumeral?, List.append_assoc, List.cons_append,
        splitDigits_append hwhole hpoint]
      simp only [splitDigits_append hfraction hstop]
      rw [if_neg]
      simpa [or_iff_not_imp_left] using hne

/-- A numeral that a text starts with is taken off it up to where it ends. -/
theorem isNumeral_of_splitNumeral? {text numeral rest : List Char}
    (h : splitNumeral? text = some (numeral, rest)) :
    text = numeral ++ rest ∧
      ∃ stops, IsNumeral numeral stops ∧ ∀ c ∈ rest.head?, stops c = true := by
  have hdigits : ∀ {text : List Char}, ∀ c ∈ text.takeWhile Char.isDigit, c.isDigit = true :=
    List.all_eq_true.1 List.all_takeWhile
  have hstop : ∀ {text : List Char}, ∀ c ∈ (text.dropWhile Char.isDigit).head?,
      c.isDigit = false := by
    intro text c hc
    have hend := List.head?_dropWhile_not Char.isDigit text
    rwa [Option.mem_def.1 hc] at hend
  unfold splitNumeral? splitDigits at h
  dsimp only at h
  split at h
  · next afterPoint hrest =>
      split at h
      · cases h
      · next hempty =>
          cases h
          refine ⟨?_, _, .pointed ?_ hdigits hdigits, by simpa using fun c hc => hstop c hc⟩
          · rw [List.append_assoc, List.cons_append, List.takeWhile_append_dropWhile, ← hrest,
              List.takeWhile_append_dropWhile]
          · simpa [or_iff_not_imp_left] using hempty
  · next hpoint =>
      split at h
      · cases h
      · next hempty =>
          cases h
          refine ⟨List.takeWhile_append_dropWhile.symm, _, .whole (by simpa using hempty) hdigits,
            ?_⟩
          intro c hc
          have hc' : c ≠ '.' := by
            rintro rfl
            obtain ⟨tail, htail⟩ := List.head?_eq_some_iff.1 (Option.mem_def.1 hc)
            exact hpoint tail htail
          simp [hstop c hc, hc']

/-! ## Characters that start a lexeme -/

theorem toNat_of_isDigit {c : Char} (h : c.isDigit = true) : 0x30 ≤ c.toNat ∧ c.toNat ≤ 0x39 := by
  simpa [Char.isDigit, UInt32.le_iff_toNat_le] using h

/-- The code points of all blanks. -/
def blankPoints : List Nat :=
  [0x9, 0xA, 0xB, 0xC, 0xD, 0x20, 0x85, 0xA0, 0x1680, 0x2000, 0x2001, 0x2002, 0x2003, 0x2004,
    0x2005, 0x2006, 0x2007, 0x2008, 0x2009, 0x200A, 0x2028, 0x2029, 0x202F, 0x205F, 0x3000]

/-- There are no blanks in names. -/
theorem isNamePart_of_isBlank {c : Char} (h : isBlank c = true) : isNamePart c = false := by
  -- the code points of all blanks, looked up in the tables
  have hpoints : ∀ n ∈ blankPoints, isNamePart (Char.ofNat n) = false := by decide +kernel
  have hmem := hpoints c.toNat (by
    simp only [blankPoints, List.mem_cons, List.not_mem_nil, or_false]
    simp only [isBlank, Bool.or_eq_true, Bool.and_eq_true, decide_eq_true_eq, beq_iff_eq] at h
    omega)
  simpa using hmem

/-- No name starts with a blank or a digit. -/
theorem isNameStart_eq_false {c : Char} (h : isBlank c = true ∨ c.isDigit = true) :
    isNameStart c = false := by
  rcases h with h | h
  · rw [Bool.eq_false_iff]
    intro hstart
    exact Bool.eq_false_iff.1 (isNamePart_of_isBlank h) (isNamePart_of_isNameStart hstart)
  · have hpoints : ∀ n ∈ [0x30, 0x31, 0x32, 0x33, 0x34, 0x35, 0x36, 0x37, 0x38, 0x39],
        isNameStart (Char.ofNat n) = false := by decide +kernel
    have hmem := hpoints c.toNat (by
      simp only [List.mem_cons, List.not_mem_nil, or_false]
      have := toNat_of_isDigit h
      omega)
    simpa using hmem

theorem isBlank_of_isDigit {c : Char} (h : c.isDigit = true) : isBlank c = false := by
  have := toNat_of_isDigit h
  simp [isBlank]
  omega

theorem isDigit_of_isBlank {c : Char} (h : isBlank c = true) : c.isDigit = false := by
  rw [Bool.eq_false_iff]
  intro hdigit
  exact Bool.eq_false_iff.1 (isBlank_of_isDigit hdigit) h

theorem ne_of_isBlank {c d : Char} (h : isBlank c = true) (hd : isBlank d = false) : c ≠ d := by
  rintro rfl
  exact Bool.eq_false_iff.1 hd h

namespace Word

variable (w : Word)

theorem isDigit_first : w.first.isDigit = false := by
  cases h : w.first.isDigit with
  | false => rfl
  | true => simpa [w.start] using isNameStart_eq_false (.inr h)

theorem isBlank_first : isBlank w.first = false := by
  cases h : isBlank w.first with
  | false => rfl
  | true => simpa [w.start] using isNameStart_eq_false (.inl h)

theorem first_ne {c : Char} (h : isNameStart c = false) : w.first ≠ c := by
  intro heq
  simp [← heq, w.start] at h

theorem isNamePart_of_mem {c : Char} (h : c ∈ w.chars) : isNamePart c = true := by
  rcases List.mem_cons.1 h with rfl | h
  · exact isNamePart_of_isNameStart w.start
  · exact List.all_eq_true.1 w.parts c h

end Word

theorem Digits.isDigit_of_mem (d : Digits) {c : Char} (h : c ∈ d.chars) : c.isDigit = true := by
  rcases List.mem_cons.1 h with rfl | h
  · exact d.start
  · exact List.all_eq_true.1 d.parts c h

/-- Every lexeme starts with a character that is no blank. -/
theorem Lexeme.exists_chars_eq_cons (x : Lexeme) :
    ∃ c cs, x.chars = c :: cs ∧ isBlank c = false := by
  cases x with
  | symbol s => cases s <;> exact ⟨_, _, rfl, by decide⟩
  | number n =>
      cases n with
      | whole digits => exact ⟨_, _, rfl, isBlank_of_isDigit digits.start⟩
      | decimal integer part => exact ⟨_, _, rfl, isBlank_of_isDigit integer.start⟩
      | fraction digits => exact ⟨_, _, rfl, by decide⟩
  | string l =>
      refine ⟨_, _, rfl, ?_⟩
      rcases l.isQuote with h | h <;> simp [h] <;> decide
  | name w => exact ⟨_, _, rfl, w.isBlank_first⟩

/-! ## Where a lexeme ends -/

/-- The lexeme does not go on with this character. -/
def Lexeme.stopsAt : Lexeme → Char → Bool
  | .symbol .slash, c => c != '/'
  | .symbol .dot, c => !c.isDigit && c != '.'
  | .symbol .less, c => c != '='
  | .symbol .greater, c => c != '='
  | .symbol .not, c => !isNamePart c
  | .symbol s, c => !(wordOperators.contains s && isNamePart c)
  | .number _, c => !c.isDigit && c != '.'
  | .string _, _ => true
  | .name _, c => !isNamePart c

/-- The lexeme ends where this text stands behind it. -/
def Lexeme.EndsBefore (x : Lexeme) (tail : List Char) : Prop := ∀ c ∈ tail.head?, x.stopsAt c = true

theorem Lexeme.endsBefore_nil (x : Lexeme) : x.EndsBefore [] := by simp [Lexeme.EndsBefore]

/-- Every lexeme ends before a blank. -/
theorem Lexeme.stopsAt_of_isBlank (x : Lexeme) {c : Char} (h : isBlank c = true) :
    x.stopsAt c = true := by
  have hdigit := isDigit_of_isBlank h
  have hpart := isNamePart_of_isBlank h
  have hsigns : c ≠ '/' ∧ c ≠ '.' ∧ c ≠ '=' :=
    ⟨ne_of_isBlank h rfl, ne_of_isBlank h rfl, ne_of_isBlank h rfl⟩
  cases x with
  | symbol s => cases s <;> simp [Lexeme.stopsAt, hdigit, hsigns, hpart]
  | number n => simp [Lexeme.stopsAt, hdigit, hsigns]
  | string l => rfl
  | name w => simp [Lexeme.stopsAt, hpart]

theorem Lexeme.endsBefore_blank (x : Lexeme) (text : List Char) : x.EndsBefore (' ' :: text) := by
  have hblank : x.stopsAt ' ' = true := x.stopsAt_of_isBlank (by decide)
  simpa [Lexeme.EndsBefore] using hblank

/-! ## One lexeme -/

/-- A number as it is written in phrases is a numeral, and ends where its lexeme does. -/
theorem Numeral.isNumeral (n : Numeral) {tail : List Char}
    (htail : (Lexeme.number n).EndsBefore tail) :
    ∃ stops, IsNumeral n.chars stops ∧ ∀ c ∈ tail.head?, stops c = true := by
  have hstop : ∀ c ∈ tail.head?, (!c.isDigit) = true := by
    intro c hc
    exact (Bool.and_eq_true_iff.1 (htail c hc)).1
  cases n with
  | whole digits => exact ⟨_, .whole (List.cons_ne_nil _ _) fun c => digits.isDigit_of_mem, htail⟩
  | decimal integer part =>
      exact ⟨_, .pointed (.inl (List.cons_ne_nil _ _)) (fun c => integer.isDigit_of_mem)
        (fun c => part.isDigit_of_mem), hstop⟩
  | fraction digits =>
      have hpointed : IsNumeral ([] ++ '.' :: digits.chars) fun c => !c.isDigit :=
        .pointed (.inr (List.cons_ne_nil _ _)) (by simp) fun c => digits.isDigit_of_mem
      exact ⟨_, hpointed, hstop⟩

/-- A text that starts with neither a digit nor a point starts with no number. -/
theorem splitNumeral?_eq_none {c : Char} {tail : List Char} (hdigit : c.isDigit = false)
    (hpoint : c ≠ '.') : splitNumeral? (c :: tail) = none := by
  simp [splitNumeral?, splitDigits, hdigit, hpoint]

namespace Lexer

variable (l : Lexer) {tail : List Char}

theorem scan_numeral {numeral : List Char} {stops : Char → Bool} (h : IsNumeral numeral stops)
    (htail : ∀ c ∈ tail.head?, stops c = true) :
    l.scan (numeral ++ tail) =
      (.ok (.number (numeralValue numeral).toFloat), numeral.length) := by
  have hsplit := h.splitNumeral? htail
  obtain ⟨c, cs, rfl⟩ := List.exists_cons_of_ne_nil (ne_nil_of_splitNumeral? hsplit)
  rw [List.cons_append] at hsplit ⊢
  simp only [scan, hsplit]

theorem scan_number (n : Numeral) (htail : (Lexeme.number n).EndsBefore tail) :
    l.scan (n.chars ++ tail) = (.ok (.number n.value), n.chars.length) := by
  obtain ⟨stops, hnumeral, hstops⟩ := n.isNumeral htail
  exact scan_numeral l hnumeral hstops

/-- A literal ends at its own quotation mark, whatever follows. -/
theorem scan_string (x : Literal) :
    l.scan ((Lexeme.string x).chars ++ tail) =
      (.ok (.string x.text), (Lexeme.string x).chars.length) := by
  have hmark : x.mark.isDigit = false ∧ x.mark ≠ '.' ∧
      (x.mark == '"' || x.mark == '\'') = true := by
    rcases x.isQuote with h | h <;> rw [h] <;> decide
  -- the mark ends the run, since the value does not contain it
  have hvalue : (x.value ++ x.mark :: tail).takeWhile (· != x.mark) = x.value := by
    apply takeWhile_append_stop
    · intro c hc
      simpa using fun h : c = x.mark => x.absent (h ▸ hc)
    · simp
  simp [Lexeme.chars, scan, splitNumeral?_eq_none hmark.1 hmark.2.1, hmark.2.2, hvalue,
    Literal.text]

/-- A word ends where no part of a name follows. -/
theorem scan_word (w : Word) (hstop : ∀ c ∈ tail.head?, isNamePart c = false) :
    l.scan (w.chars ++ tail) = (.ok (l.wordKind w.chars), w.chars.length) := by
  -- a name starts with no digit, no point and no quotation mark, so nothing else is tried
  have hword := takeWhile_append_stop (fun c => w.isNamePart_of_mem) hstop
  have hquotes : (w.first == '"' || w.first == '\'') = false := by
    simp [w.first_ne (c := '"') (by decide), w.first_ne (c := '\'') (by decide)]
  have hnumeral : splitNumeral? (w.first :: (w.rest ++ tail)) = none :=
    splitNumeral?_eq_none w.isDigit_first (w.first_ne (by decide))
  rw [Word.chars, List.cons_append] at hword ⊢
  simp only [scan, hnumeral, hquotes, w.start, hword]
  simp

end Lexer

/-- The lexeme has the meaning that it stands for behind a token with the two facts that the lexer
keeps: a word operator only behind an operand and a name only elsewhere, and `not` as an operator
only where no step is due. -/
def Lexeme.Fits (afterOperand stepDue : Bool) : Lexeme → Prop
  | .symbol .not => stepDue = false
  | .symbol s => s ∈ wordOperators → afterOperand = true
  | .name w => afterOperand = false ∧ (w.chars = Symbol.not.spelling.toList → stepDue = true)
  | _ => True

namespace Lexer

variable (l : Lexer) {tail : List Char}

/-- A word that fits as a name is read as one, not as an operator and not as `not`. -/
theorem wordKind_name {l : Lexer} {w : Word} (h : (Lexeme.name w).Fits l.afterOperand l.stepDue) :
    l.wordKind w.chars = .name w.text := by
  obtain ⟨hoperand, hnot⟩ := h
  -- where no operand has ended there are no operators, and `not` stands for itself behind a slash
  have hnone : wordOperators.find? (fun s => l.afterOperand && s.spelling.toList == w.chars) =
      none := by
    simp [hoperand]
  by_cases hw : w.chars = Symbol.not.spelling.toList
  · simp [wordKind, hnone, hnot hw, Word.text]
  · simp [wordKind, hnone, hw, Word.text]

/-- A sign is read as the longest one that stands there. -/
theorem scan_sign {c : Char} {text : List Char} {s : Symbol}
    (hnumeral : splitNumeral? (c :: text) = none) (hquote : (c == '"' || c == '\'') = false)
    (hname : isNameStart c = false) (hsign : sign? (c :: text) = some s) :
    l.scan (c :: text) = (.ok (.symbol s), s.spelling.length) := by
  simp only [scan, hnumeral, hquote, hname, hsign, Bool.false_eq_true, if_false]

/-- A symbol is read as itself if what follows does not make it a longer one. -/
theorem scan_symbol {s : Symbol} (h : (Lexeme.symbol s).Fits l.afterOperand l.stepDue)
    (htail : (Lexeme.symbol s).EndsBefore tail) :
    l.scan ((Lexeme.symbol s).chars ++ tail) =
      (.ok (.symbol s), (Lexeme.symbol s).chars.length) := by
  obtain ⟨rest, offset, afterOperand, stepDue⟩ := l
  have hword : s = .not ∨ s ∈ wordOperators → ∀ c ∈ tail.head?, isNamePart c = false := by
    intro hs c hc
    have hstop := htail c hc
    rcases hs with rfl | hs
    · simpa [Lexeme.stopsAt] using hstop
    · cases s <;> simp_all [Lexeme.stopsAt, wordOperators]
  -- the operators that are words are read as words, and the place decides what they mean
  cases s with
  | not =>
      cases h
      have hstop := hword (by decide)
      cases afterOperand <;> exact scan_word _ ⟨'n', ['o', 't'], by decide, by decide⟩ hstop
  | and =>
      cases h (by decide)
      exact scan_word _ ⟨'a', ['n', 'd'], by decide, by decide⟩ (hword (by decide))
  | or =>
      cases h (by decide)
      exact scan_word _ ⟨'o', ['r'], by decide, by decide⟩ (hword (by decide))
  | mod =>
      cases h (by decide)
      exact scan_word _ ⟨'m', ['o', 'd'], by decide, by decide⟩ (hword (by decide))
  | div =>
      cases h (by decide)
      exact scan_word _ ⟨'d', ['i', 'v'], by decide, by decide⟩ (hword (by decide))
  -- a sign that begins a longer one or a number is read to its end by the character behind it
  | slash =>
      cases tail with
      | nil => rfl
      | cons c tail =>
          have hc : c ≠ '/' := by simpa [Lexeme.EndsBefore, Lexeme.stopsAt] using htail
          have hsign : sign? ('/' :: c :: tail) = some .slash := by
            simp [sign?, signs, after?, Symbol.spelling, hc.symm]
          exact scan_sign _ (splitNumeral?_eq_none rfl (by decide)) rfl (by decide) hsign
  | dot =>
      cases tail with
      | nil => rfl
      | cons c tail =>
          obtain ⟨hdigit, hc⟩ : c.isDigit = false ∧ c ≠ '.' := by
            simpa [Lexeme.EndsBefore, Lexeme.stopsAt] using htail
          have hsign : sign? ('.' :: c :: tail) = some .dot := by
            simp [sign?, signs, after?, Symbol.spelling, hc.symm]
          have hnumeral : splitNumeral? ('.' :: c :: tail) = none := by
            simp [splitNumeral?, splitDigits, hdigit]
          exact scan_sign _ hnumeral rfl (by decide) hsign
  | less =>
      cases tail with
      | nil => rfl
      | cons c tail =>
          have hc : c ≠ '=' := by simpa [Lexeme.EndsBefore, Lexeme.stopsAt] using htail
          have hsign : sign? ('<' :: c :: tail) = some .less := by
            simp [sign?, signs, after?, Symbol.spelling, hc.symm]
          exact scan_sign _ (splitNumeral?_eq_none rfl (by decide)) rfl (by decide) hsign
  | greater =>
      cases tail with
      | nil => rfl
      | cons c tail =>
          have hc : c ≠ '=' := by simpa [Lexeme.EndsBefore, Lexeme.stopsAt] using htail
          have hsign : sign? ('>' :: c :: tail) = some .greater := by
            simp [sign?, signs, after?, Symbol.spelling, hc.symm]
          exact scan_sign _ (splitNumeral?_eq_none rfl (by decide)) rfl (by decide) hsign
  | _ => rfl

/-- A lexeme in its place is read as the token that it writes. -/
theorem scan_lexeme {x : Lexeme} (h : x.Fits l.afterOperand l.stepDue)
    (htail : x.EndsBefore tail) : l.scan (x.chars ++ tail) = (.ok x.kind, x.chars.length) := by
  cases x with
  | symbol s => exact scan_symbol l h htail
  | number n => exact scan_number l n htail
  | string x => exact scan_string l x
  | name w =>
      have hstop : ∀ c ∈ tail.head?, isNamePart c = false := by
        intro c hc
        simpa [Lexeme.stopsAt] using htail c hc
      have hscan := scan_word l w hstop
      rwa [wordKind_name h] at hscan

/-- Behind blanks and a lexeme in its place the lexer keeps the two facts about that lexeme. -/
theorem next_lexeme {x : Lexeme} (hrest : l.rest.dropWhile isBlank = x.chars ++ tail)
    (h : x.Fits l.afterOperand l.stepDue) (htail : x.EndsBefore tail) :
    ∃ offset l', l.next = (.ok ⟨x.kind, offset⟩, l') ∧ l'.rest = tail ∧
      l'.afterOperand = endsOperand l.afterOperand x.kind ∧
      l'.stepDue = announcesStep x.kind := by
  have hscan : l.skipBlanks.scan l.skipBlanks.rest = (.ok x.kind, x.chars.length) := by
    rw [skipBlanks, hrest]
    exact scan_lexeme { l with rest := _, offset := _ } h htail
  refine ⟨l.skipBlanks.offset, { l.skipBlanks.pass x.chars.length with
    afterOperand := endsOperand l.afterOperand x.kind
    stepDue := announcesStep x.kind }, ?_, ?_, rfl, rfl⟩
  · simp only [next, hscan]
    cases x <;> rfl
  · simp [pass, skipBlanks, hrest]

end Lexer

/-! ## Lists of lexemes -/

/-- The lexemes have the meaning that they stand for one after another, behind a token with the
first two facts, and the last two facts hold of the last one. -/
def Leads (afterOperand stepDue : Bool) : List Lexeme → Bool → Bool → Prop
  | [], afterOperand', stepDue' => afterOperand = afterOperand' ∧ stepDue = stepDue'
  | x :: rest, afterOperand', stepDue' =>
      x.Fits afterOperand stepDue ∧
        Leads (Lexer.endsOperand afterOperand x.kind) (Lexer.announcesStep x.kind) rest
          afterOperand' stepDue'

theorem Leads.append {xs ys : List Lexeme} {a d a₁ d₁ a₂ d₂ : Bool} (hxs : Leads a d xs a₁ d₁)
    (hys : Leads a₁ d₁ ys a₂ d₂) : Leads a d (xs ++ ys) a₂ d₂ := by
  induction xs generalizing a d with
  | nil =>
      obtain ⟨rfl, rfl⟩ := hxs
      exact hys
  | cons x xs ih => exact ⟨hxs.1, ih hxs.2⟩

/-- The text writes the lexemes one after another, with blanks where the next character would go on
with a lexeme, and wherever else it has them. -/
inductive Spells : List Char → List Lexeme → Prop where
  | nil : Spells [] []
  | blank {text : List Char} {xs : List Lexeme} (h : Spells text xs) : Spells (' ' :: text) xs
  | lexeme {x : Lexeme} {text : List Char} {xs : List Lexeme} (hx : x.EndsBefore text)
      (h : Spells text xs) : Spells (x.chars ++ text) (x :: xs)

theorem spells_written (xs : List Lexeme) : Spells (written xs).toList xs := by
  rw [written, String.toList_ofList]
  induction xs with
  | nil => exact .nil
  | cons x xs ih =>
      cases xs with
      | nil => simpa using Spells.lexeme x.endsBefore_nil .nil
      | cons y ys => simpa using Spells.lexeme (x.endsBefore_blank _) ih.blank

theorem tokensFrom_of_stop {l l' : Lexer} {token : Token} (h : l.next = (.ok token, l'))
    (hstop : token.kind.isStop = true) : tokensFrom l = .ok [token] := by
  rw [tokensFrom]
  split
  · simp_all
  · next heq =>
      cases h.symm.trans heq
      rw [dif_pos hstop]

theorem tokensFrom_of_next {l l' : Lexer} {token : Token} {ts : List Token}
    (h : l.next = (.ok token, l')) (hstop : token.kind.isStop = false)
    (hts : tokensFrom l' = .ok ts) : tokensFrom l = .ok (token :: ts) := by
  rw [tokensFrom]
  split
  · simp_all
  · next heq =>
      cases h.symm.trans heq
      rw [dif_neg (Bool.eq_false_iff.1 hstop), hts]

/-- The lexer reads the text of lexemes as the tokens that they write, and then the end. -/
theorem Spells.kinds_of_tokensFrom {text : List Char} {xs : List Lexeme} (h : Spells text xs)
    {l : Lexer} {a d : Bool} (hleads : Leads l.afterOperand l.stepDue xs a d)
    (hrest : l.rest.dropWhile isBlank = text.dropWhile isBlank) :
    ∃ ts, tokensFrom l = .ok ts ∧ ts.map Token.kind = xs.map Lexeme.kind ++ [.stop] := by
  -- one lexeme after the other; the lexer passes the blanks before each of them
  induction h generalizing l with
  | nil =>
      have hnext : l.next = (.ok ⟨.stop, l.skipBlanks.offset⟩, l.skipBlanks) := by
        have hempty : l.skipBlanks.rest = [] := by simpa [Lexer.skipBlanks] using hrest
        simp [Lexer.next, Lexer.scan, hempty]
      exact ⟨_, tokensFrom_of_stop hnext rfl, rfl⟩
  | blank _ ih =>
      have hspace : isBlank ' ' = true := by decide
      exact ih hleads (by rw [hrest, List.dropWhile_cons_of_pos hspace])
  | @lexeme x tail xs hx _ ih =>
      have hfirst : (x.chars ++ tail).dropWhile isBlank = x.chars ++ tail := by
        obtain ⟨c, cs, hchars, hblank⟩ := x.exists_chars_eq_cons
        simp [hchars, hblank]
      obtain ⟨offset, l', hnext, hrest', hafter, hdue⟩ :=
        l.next_lexeme (hrest.trans hfirst) hleads.1 hx
      have hleads' : Leads l'.afterOperand l'.stepDue xs a d := by
        rw [hafter, hdue]
        exact hleads.2
      obtain ⟨ts, hts, hkinds⟩ := ih hleads' (by rw [hrest'])
      have hstop : x.kind.isStop = false := by cases x <;> rfl
      exact ⟨_, tokensFrom_of_next hnext hstop hts, by simp [hkinds]⟩

/-- Lexemes that start with an operand are read back from their text. -/
theorem Spells.kinds_of_tokens {text : List Char} {xs : List Lexeme} (h : Spells text xs)
    {a d : Bool} (hleads : Leads false false xs a d) :
    ∃ ts, tokens text = .ok ts ∧ ts.map Token.kind = xs.map Lexeme.kind ++ [.stop] :=
  h.kinds_of_tokensFrom hleads rfl

/-! ## Phrases -/

/-- A sign has one meaning everywhere. -/
theorem Lexeme.fits_sign {s : Symbol} (hs : s ≠ .not ∧ s ∉ wordOperators) {a d : Bool} :
    (Lexeme.symbol s).Fits a d := by
  cases s with
  | not => exact absurd rfl hs.1
  | _ => exact fun h => absurd h hs.2

theorem leads_operator (op : BinaryOp) : Leads true false [.symbol op.symbol] false false := by
  cases op with
  | or => exact ⟨fun _ => rfl, rfl, rfl⟩
  | and => exact ⟨fun _ => rfl, rfl, rfl⟩
  | compare op => cases op <;> exact ⟨Lexeme.fits_sign (by decide), rfl, rfl⟩
  | arithmetic op => cases op <;> exact ⟨fun _ => rfl, rfl, rfl⟩

theorem leads_separator (separator : Separator) {a d : Bool} :
    Leads a d [.symbol separator.symbol] false true := by
  cases separator <;> exact ⟨Lexeme.fits_sign (by decide), rfl, rfl⟩

theorem leads_pattern (p : Pattern) : Leads false true [p.lexeme] true false := by
  cases p with
  | star => exact ⟨Lexeme.fits_sign (by decide), rfl, rfl⟩
  | named w => exact ⟨⟨rfl, fun _ => rfl⟩, rfl, rfl⟩

/-- A step by the name `not` is read as such only where a step is due. -/
theorem leads_head {head : Head} {d : Bool} (h : d = false → head.isNot = false) :
    Leads false d [head.lexeme] true false := by
  cases head with
  | dot => exact ⟨Lexeme.fits_sign (by decide), rfl, rfl⟩
  | doubleDot => exact ⟨Lexeme.fits_sign (by decide), rfl, rfl⟩
  | element p =>
      cases p with
      | star => exact ⟨Lexeme.fits_sign (by decide), rfl, rfl⟩
      | named w =>
          refine ⟨⟨rfl, fun hw => ?_⟩, rfl, rfl⟩
          cases d with
          | true => rfl
          | false => simp [Head.isNot, hw] at h

theorem leads_step (separator : Separator) (head : Head) {xs : List Lexeme} {a d : Bool}
    (h : Leads true false xs true false) :
    Leads a d (.symbol separator.symbol :: head.lexeme :: xs) true false := by
  have hhead : Leads false true [head.lexeme] true false := leads_head (nomatch ·)
  exact (leads_separator separator).append (hhead.append h)

theorem leads_attribute (separator : Separator) (p : Pattern) {a d : Bool} :
    Leads a d (attributeLexemes separator p) true false := by
  have hname : Leads false true [.symbol .atSign, p.lexeme] true false :=
    ⟨Lexeme.fits_sign (by decide), leads_pattern p⟩
  exact (leads_separator separator).append hname

theorem Leads.parenthesized {xs : List Lexeme} {a : Bool} (h : Leads false false xs a false)
    {b : Bool} : Leads b false (parenthesized xs) true false :=
  ⟨Lexeme.fits_sign (by decide), h.append ⟨Lexeme.fits_sign (by decide), rfl, rfl⟩⟩

theorem Leads.operand {xs : List Lexeme} (h : Leads false false xs true false)
    {least power : Nat} : Leads false false (operand least power xs) true false := by
  rw [Query.operand]
  split
  · exact h.parenthesized
  · exact h

theorem leads_call (w : Word) {xs : List Lexeme} (hw : w.chars ≠ Symbol.not.spelling.toList)
    {a : Bool} (h : Leads false false xs a false) :
    Leads false false (.name w :: parenthesized xs) true false :=
  ⟨⟨rfl, fun heq => absurd heq hw⟩, h.parenthesized⟩

mutual

/-- The lexemes of a phrase are read as they are meant where an operand is due. -/
theorem Phrase.leads : ∀ e : Phrase, Leads false false e.lexemes true false
  | .number _ => ⟨trivial, rfl, rfl⟩
  | .string _ => ⟨trivial, rfl, rfl⟩
  | .attribute p => ⟨Lexeme.fits_sign (by decide), leads_pattern p⟩
  | .constant c => leads_call c.word (by cases c <;> decide) ⟨rfl, rfl⟩
  | .contains whole part =>
      leads_call containsWord (by decide)
        (whole.leads.append ⟨Lexeme.fits_sign (by decide), part.leads⟩)
  | .not arg => ⟨rfl, arg.leads.parenthesized⟩
  | .path p => p.leads
  | .attributePath p separator name => p.leads.append (leads_attribute separator name)
  | .rootAttribute separator name => leads_attribute separator name
  | .union first second others =>
      first.leads.append
        ⟨Lexeme.fits_sign (by decide), second.leads.append (PathPhrase.leads_others others)⟩
  | .negate arg => ⟨Lexeme.fits_sign (by decide), arg.leads.operand⟩
  | .binary op left right =>
      left.leads.operand.append ((leads_operator op).append right.leads.operand)

theorem PathPhrase.leads : ∀ p : PathPhrase, Leads false false p.lexemes true false
  | .mk none _ admitted predicates later =>
      (leads_head fun _ => admitted rfl).append
        ((Phrase.leads_predicates predicates).append (StepPhrase.leads later))
  | .mk (some separator) head _ predicates later =>
      leads_step separator head
        ((Phrase.leads_predicates predicates).append (StepPhrase.leads later))

theorem PathPhrase.leads_others :
    ∀ ps : List PathPhrase, Leads true false (PathPhrase.otherLexemes ps) true false
  | [] => ⟨rfl, rfl⟩
  | p :: rest => ⟨Lexeme.fits_sign (by decide), p.leads.append (PathPhrase.leads_others rest)⟩

theorem StepPhrase.leads :
    ∀ steps : List StepPhrase, Leads true false (StepPhrase.lexemes steps) true false
  | [] => ⟨rfl, rfl⟩
  | .mk separator head predicates :: rest =>
      leads_step separator head
        ((Phrase.leads_predicates predicates).append (StepPhrase.leads rest))

theorem Phrase.leads_predicates :
    ∀ es : List Phrase, Leads true false (Phrase.predicateLexemes es) true false
  | [] => ⟨rfl, rfl⟩
  | e :: rest =>
      ⟨Lexeme.fits_sign (by decide),
        e.leads.append ⟨Lexeme.fits_sign (by decide), Phrase.leads_predicates rest⟩⟩

end

end MarkupPath.Query
