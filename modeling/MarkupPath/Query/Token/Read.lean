import MarkupPath.Query.Fault
import MarkupPath.Text.Letter

/-!
# Reading tokens

`Lexer` is the unread rest of an expression with what the meaning of the next word depends on.
`Lexer.next` reads one token and can go on after a fault; `tokens` reads a whole expression.
`Lexer.scan` classifies the text at a token, and `pos_of_scan` says that a token takes at least one
character.
-/

set_option autoImplicit false

namespace MarkupPath.Query

open MarkupPath.Text MarkupPath.Number

/-! ## Names and symbols -/

/-- A character that a name may start with. -/
def isNameStart (c : Char) : Bool := isLetter c || c == '_'

/-- A character that a name may go on with. -/
def isNamePart (c : Char) : Bool :=
  isLetter c || isNumeric c || c == '_' || c == '-' || c == '.' || c == ':'

theorem isNamePart_of_isNameStart {c : Char} (h : isNameStart c = true) : isNamePart c = true := by
  simp only [isNameStart, Bool.or_eq_true] at h
  rcases h with h | h <;> simp [isNamePart, h]

/-- The symbols written with signs, a longer one before those it begins with. -/
def signs : List Symbol :=
  [.doubleSlash, .slash, .doubleDot, .dot, .notEqual, .lessEqual, .less, .greaterEqual, .greater,
    .atSign, .pipe, .plus, .minus, .star, .equal, .openParen, .closeParen, .openBracket,
    .closeBracket, .comma]

/-- The longest sign that a text starts with. -/
def sign? (text : List Char) : Option Symbol :=
  signs.find? fun s => (after? s.spelling.toList text).isSome

/-- The operators written as words. -/
def wordOperators : List Symbol := [.and, .or, .div, .mod]

/-! ## The lexer -/

/-- The unread rest of an expression and the number of characters before it, with two facts about
the token just read: that an operand ends with it, and that a step is due behind it. -/
structure Lexer where
  rest : List Char
  offset : Nat
  afterOperand : Bool
  stepDue : Bool
  deriving DecidableEq, Repr

namespace Lexer

/-- Nothing is read. -/
def start (source : List Char) : Lexer := ⟨source, 0, false, false⟩

/-- The meaning of a word: an operator behind an operand, `not` unless a step is due, and a name
otherwise. -/
def wordKind (l : Lexer) (word : List Char) : TokenKind :=
  match wordOperators.find? fun s => l.afterOperand && s.spelling.toList == word with
  | some s => .symbol s
  | none =>
      if word == Symbol.not.spelling.toList && !l.stepDue then .symbol .not
      else .name (String.ofList word)

/-- The token that a text starts with, or the fault, and how many characters it takes. A string
without end takes all, and an exclamation mark that starts no symbol is passed over; any other
character without meaning is not. -/
def scan (l : Lexer) (text : List Char) : Except SyntaxFault TokenKind × Nat :=
  match text with
  | [] => (.ok .stop, 0)
  | c :: rest =>
      -- a point is a symbol unless a digit follows it
      match splitNumeral? text with
      | some (numeral, _) => (.ok (.number (numeralValue numeral).toFloat), numeral.length)
      | none =>
          if c == '"' || c == '\'' then
            let value := rest.takeWhile (· != c)
            if value.length < rest.length then
              (.ok (.string (String.ofList value)), value.length + 2)
            else (.error .openString, rest.length + 1)
          else if isNameStart c then
            let word := text.takeWhile isNamePart
            (.ok (l.wordKind word), word.length)
          else
            match sign? text with
            | some s => (.ok (.symbol s), s.spelling.length)
            | none => (.error (.character c), if c == '!' then 1 else 0)

/-- An operand ends with this token. A star is a wildcard, and ends one, where none has ended. -/
def endsOperand (afterOperand : Bool) : TokenKind → Bool
  | .name _ => true
  | .string _ => true
  | .number _ => true
  | .symbol .closeParen => true
  | .symbol .closeBracket => true
  | .symbol .dot => true
  | .symbol .doubleDot => true
  | .symbol .star => !afterOperand
  | _ => false

/-- A step is due behind this token. -/
def announcesStep : TokenKind → Bool
  | .symbol .slash => true
  | .symbol .doubleSlash => true
  | .symbol .atSign => true
  | _ => false

/-- The lexer behind the blanks that stand at it. -/
def skipBlanks (l : Lexer) : Lexer :=
  { l with
    rest := l.rest.dropWhile isBlank
    offset := l.offset + (l.rest.takeWhile isBlank).length }

/-- The lexer with a number of characters passed over. -/
def pass (l : Lexer) (count : Nat) : Lexer :=
  { l with rest := l.rest.drop count, offset := l.offset + count }

/-- The next token or fault, and the lexer behind it. -/
def next (l : Lexer) : Except SyntaxError Token × Lexer :=
  let here := l.skipBlanks
  match here.scan here.rest with
  | (.ok .stop, _) => (.ok ⟨.stop, here.offset⟩, here)
  | (.ok kind, count) =>
      (.ok ⟨kind, here.offset⟩,
        { here.pass count with
          afterOperand := endsOperand here.afterOperand kind
          stepDue := announcesStep kind })
  | (.error fault, count) => (.error ⟨fault, here.offset⟩, here.pass count)

/-! ## Progress -/

theorem length_skipBlanks_le (l : Lexer) : l.skipBlanks.rest.length ≤ l.rest.length :=
  (List.dropWhile_sublist _).length_le

theorem ne_nil_of_splitNumeral? {text numeral rest : List Char}
    (h : splitNumeral? text = some (numeral, rest)) : numeral ≠ [] := by
  unfold splitNumeral? at h
  simp only at h
  split at h
  · split at h
    · cases h
    · cases h
      simp
  · split at h
    · cases h
    · next hne =>
        cases h
        simpa using hne

theorem length_spelling_pos (s : Symbol) : 0 < s.spelling.length := by
  cases s <;> decide

/-- A token other than the end takes at least one character. -/
theorem pos_of_scan {l : Lexer} {text : List Char} {kind : TokenKind} {count : Nat}
    (h : l.scan text = (.ok kind, count)) (hk : kind.isStop = false) : 0 < count ∧ text ≠ [] := by
  unfold scan at h
  split at h
  · cases h
    cases hk
  · next c rest =>
      refine ⟨?_, by simp⟩
      split at h
      · next hnumeral =>
          cases h
          exact List.length_pos_iff.2 (ne_nil_of_splitNumeral? hnumeral)
      · split at h
        · simp only at h
          split at h <;> cases h
          omega
        · split at h
          · next hc =>
              cases h
              simp [isNamePart_of_isNameStart hc]
          · split at h
            · cases h
              exact length_spelling_pos _
            · cases h

theorem length_of_next {l l' : Lexer} {token : Token} (h : l.next = (.ok token, l'))
    (hk : token.kind.isStop = false) : l'.rest.length < l.rest.length := by
  unfold next at h
  simp only at h
  split at h
  · cases h
    cases hk
  · next hscan =>
      cases h
      obtain ⟨hpos, hne⟩ := pos_of_scan hscan hk
      have := List.length_pos_iff.2 hne
      have := l.length_skipBlanks_le
      simp only [pass, List.length_drop]
      omega
  · cases h

end Lexer

/-! ## Whole expressions -/

/-- The tokens from a lexer to the end of the expression, that end included. -/
def tokensFrom (l : Lexer) : Except SyntaxError (List Token) :=
  match _h : l.next with
  | (.error e, _) => .error e
  | (.ok token, l') =>
      if _hk : token.kind.isStop = true then .ok [token]
      else
        match tokensFrom l' with
        | .error e => .error e
        | .ok later => .ok (token :: later)
termination_by l.rest.length
decreasing_by exact Lexer.length_of_next _h (Bool.eq_false_iff.2 _hk)

/-- The tokens of an expression; the last one is its end. -/
def tokens (source : List Char) : Except SyntaxError (List Token) := tokensFrom (Lexer.start source)

end MarkupPath.Query
