import MarkupPath.Query.Expression

/-!
# Phrases

A `Phrase` is an expression as it is written, without blanks and parentheses: literals with their
digits and quotation marks, paths with their separators. `Phrase.tree` is the expression it stands
for. `Phrase.lexemes` writes it down as a list of lexemes, with parentheses around an operand only
where it binds too weakly for its place, and `Phrase.source` is that list as text, with one blank
between two lexemes.

A relative path does not start with the name `not`, which reads as the operator there.
-/

set_option autoImplicit false

namespace MarkupPath.Query

/-! ## Lexemes -/

/-- A name as the lexer reads one. -/
structure Word where
  first : Char
  rest : List Char
  start : isNameStart first = true
  parts : rest.all isNamePart = true

/-- The characters of the name. -/
def Word.chars (w : Word) : List Char := w.first :: w.rest

/-- The name as text. -/
def Word.text (w : Word) : String := String.ofList w.chars

/-- A run of digits, at least one. -/
structure Digits where
  first : Char
  rest : List Char
  start : first.isDigit = true
  parts : rest.all Char.isDigit = true

/-- The digits in order. -/
def Digits.chars (d : Digits) : List Char := d.first :: d.rest

/-- A number without a sign, as it is written. -/
inductive Numeral where
  | whole (digits : Digits)
  | decimal (integer part : Digits)
  | fraction (digits : Digits)

/-- The characters of the number. -/
def Numeral.chars : Numeral → List Char
  | .whole digits => digits.chars
  | .decimal integer part => integer.chars ++ '.' :: part.chars
  | .fraction digits => '.' :: digits.chars

/-- The number that the numeral writes. -/
def Numeral.value (n : Numeral) : Float := (Number.numeralValue n.chars).toFloat

/-- A string in quotation marks that do not occur in it. -/
structure Literal where
  mark : Char
  value : List Char
  isQuote : mark = '"' ∨ mark = '\''
  absent : mark ∉ value

/-- The string itself. -/
def Literal.text (l : Literal) : String := String.ofList l.value

/-- A token as it is written. -/
inductive Lexeme where
  | symbol (s : Symbol)
  | number (n : Numeral)
  | string (l : Literal)
  | name (w : Word)

/-- The characters of the lexeme. -/
def Lexeme.chars : Lexeme → List Char
  | .symbol s => s.spelling.toList
  | .number n => n.chars
  | .string l => l.mark :: l.value ++ [l.mark]
  | .name w => w.chars

/-- The token that the lexeme writes. -/
def Lexeme.kind : Lexeme → TokenKind
  | .symbol s => .symbol s
  | .number n => .number n.value
  | .string l => .string l.text
  | .name w => .name w.text

/-- Lexemes as text, with one blank between two of them. -/
def written (lexemes : List Lexeme) : String :=
  String.ofList ([' '].intercalate (lexemes.map Lexeme.chars))

/-! ## Parts of phrases -/

/-- The name of an element or an attribute, or a star. -/
inductive Pattern where
  | star
  | named (w : Word)

/-- The test of the pattern. -/
def Pattern.test : Pattern → NameTest
  | .star => .wildcard
  | .named w => .name w.text

/-- The lexeme of the pattern. -/
def Pattern.lexeme : Pattern → Lexeme
  | .star => .symbol .star
  | .named w => .name w

/-- What stands before a step. -/
inductive Separator where
  | slash
  | doubleSlash

/-- The symbol of the separator. -/
def Separator.symbol : Separator → Symbol
  | .slash => .slash
  | .doubleSlash => .doubleSlash

/-- The axis of a step by name behind the separator. -/
def Separator.axis : Separator → Axis
  | .slash => .child
  | .doubleSlash => .descendantOrSelf

/-- The steps that the separator adds before a dot or an attribute. -/
def Separator.descent : Separator → List (Step Expr)
  | .slash => []
  | .doubleSlash => [⟨.descendantOrSelf, .any, []⟩]

/-- A step without its separator and its predicates. -/
inductive Head where
  | dot
  | doubleDot
  | element (p : Pattern)

/-- The lexeme of the step. -/
def Head.lexeme : Head → Lexeme
  | .dot => .symbol .dot
  | .doubleDot => .symbol .doubleDot
  | .element p => p.lexeme

/-- The steps that the step stands for behind a separator. -/
def Head.steps (separator : Separator) (predicates : List Expr) : Head → List (Step Expr)
  | .dot => separator.descent ++ [⟨.self, .any, predicates⟩]
  | .doubleDot => separator.descent ++ [⟨.parent, .any, predicates⟩]
  | .element p => [⟨separator.axis, .element p.test, predicates⟩]

/-- The step is the name `not`. -/
def Head.isNot : Head → Bool
  | .element (.named w) => w.chars == Symbol.not.spelling.toList
  | _ => false

/-- The steps that an attribute stands for behind a separator. -/
def attributeSteps (separator : Separator) (p : Pattern) : List (Step Expr) :=
  separator.descent ++ [⟨.child, .attribute p.test, []⟩]

/-- The lexemes of an attribute behind a separator. -/
def attributeLexemes (separator : Separator) (p : Pattern) : List Lexeme :=
  [.symbol separator.symbol, .symbol .atSign, p.lexeme]

/-- The functions without arguments. -/
inductive Constant where
  | position
  | last
  | text
  | name

/-- The name of the function. -/
def Constant.word : Constant → Word
  | .position => ⟨'p', ['o', 's', 'i', 't', 'i', 'o', 'n'], by decide, by decide⟩
  | .last => ⟨'l', ['a', 's', 't'], by decide, by decide⟩
  | .text => ⟨'t', ['e', 'x', 't'], by decide, by decide⟩
  | .name => ⟨'n', ['a', 'm', 'e'], by decide, by decide⟩

/-- The name of the function with two arguments. -/
def containsWord : Word := ⟨'c', ['o', 'n', 't', 'a', 'i', 'n', 's'], by decide, by decide⟩

/-- The symbol of an operator. -/
def BinaryOp.symbol : BinaryOp → Symbol
  | .or => .or
  | .and => .and
  | .compare .equal => .equal
  | .compare .notEqual => .notEqual
  | .compare .less => .less
  | .compare .lessEqual => .lessEqual
  | .compare .greater => .greater
  | .compare .greaterEqual => .greaterEqual
  | .arithmetic .add => .plus
  | .arithmetic .sub => .minus
  | .arithmetic .mul => .star
  | .arithmetic .div => .div
  | .arithmetic .mod => .mod

/-! ## Phrases -/

mutual

/-- An expression as it is written. -/
inductive Phrase where
  | number (n : Numeral)
  | string (l : Literal)
  | attribute (p : Pattern)
  | constant (c : Constant)
  | contains (whole part : Phrase)
  | not (arg : Phrase)
  | path (p : PathPhrase)
  | attributePath (p : PathPhrase) (separator : Separator) (name : Pattern)
  | rootAttribute (separator : Separator) (name : Pattern)
  | union (first second : PathPhrase) (others : List PathPhrase)
  | negate (arg : Phrase)
  | binary (op : BinaryOp) (left right : Phrase)

/-- A path to elements as it is written; without a separator before its first step it is
relative. -/
inductive PathPhrase where
  | mk (start : Option Separator) (head : Head) (admitted : start = none → head.isNot = false)
      (predicates : List Phrase) (later : List StepPhrase)

/-- A further step of a path as it is written. -/
inductive StepPhrase where
  | mk (separator : Separator) (head : Head) (predicates : List Phrase)

end

/-- How tightly the phrase binds: a union not at all, an operator as it does, all else like a
literal. -/
def Phrase.power : Phrase → Nat
  | .union _ _ _ => 0
  | .binary op _ _ => op.power
  | _ => negationPower

/-! ## Their trees -/

mutual

/-- The expression that the phrase stands for. -/
def Phrase.tree : Phrase → Expr
  | .number n => .number n.value
  | .string l => .string l.text
  | .attribute p => .attribute p.test
  | .constant c => .call c.word.text []
  | .contains whole part => .call containsWord.text [whole.tree, part.tree]
  | .not arg => .not arg.tree
  | .path p => .path p.tree
  | .attributePath p separator name =>
      .path ⟨p.tree.absolute, p.tree.steps ++ attributeSteps separator name⟩
  | .rootAttribute separator name => .path ⟨true, attributeSteps separator name⟩
  | .union first second others => .union (first.tree :: second.tree :: PathPhrase.trees others)
  | .negate arg => .negate arg.tree
  | .binary op left right => .binary op left.tree right.tree

/-- The path that the phrase stands for. -/
def PathPhrase.tree : PathPhrase → Path Expr
  | .mk start head _ predicates later =>
      ⟨start.isSome, head.steps (start.getD .slash) (Phrase.predicateTrees predicates) ++
        StepPhrase.steps later⟩

/-- `PathPhrase.tree` of all members. -/
def PathPhrase.trees : List PathPhrase → List (Path Expr)
  | [] => []
  | p :: rest => p.tree :: PathPhrase.trees rest

/-- The steps that the further steps of a path stand for. -/
def StepPhrase.steps : List StepPhrase → List (Step Expr)
  | [] => []
  | .mk separator head predicates :: rest =>
      head.steps separator (Phrase.predicateTrees predicates) ++ StepPhrase.steps rest

/-- The predicates that phrases in brackets stand for; a number is one on the position. -/
def Phrase.predicateTrees : List Phrase → List Expr
  | [] => []
  | e :: rest => positional e.tree :: Phrase.predicateTrees rest

end

/-! ## Their lexemes -/

/-- Lexemes in parentheses. -/
def parenthesized (lexemes : List Lexeme) : List Lexeme :=
  .symbol .openParen :: lexemes ++ [.symbol .closeParen]

/-- The lexemes of an operand where one of at least a given power has to stand. -/
def operand (least power : Nat) (lexemes : List Lexeme) : List Lexeme :=
  if power < least then parenthesized lexemes else lexemes

mutual

/-- The lexemes of the phrase. -/
def Phrase.lexemes : Phrase → List Lexeme
  | .number n => [.number n]
  | .string l => [.string l]
  | .attribute p => [.symbol .atSign, p.lexeme]
  | .constant c => .name c.word :: parenthesized []
  | .contains whole part =>
      .name containsWord :: parenthesized (whole.lexemes ++ .symbol .comma :: part.lexemes)
  | .not arg => .symbol .not :: parenthesized arg.lexemes
  | .path p => p.lexemes
  | .attributePath p separator name => p.lexemes ++ attributeLexemes separator name
  | .rootAttribute separator name => attributeLexemes separator name
  | .union first second others =>
      first.lexemes ++ .symbol .pipe :: (second.lexemes ++ PathPhrase.otherLexemes others)
  | .negate arg => .symbol .minus :: operand negationPower arg.power arg.lexemes
  | .binary op left right =>
      operand op.power left.power left.lexemes ++
        .symbol op.symbol :: operand (op.power + 1) right.power right.lexemes

/-- The lexemes of the path. -/
def PathPhrase.lexemes : PathPhrase → List Lexeme
  | .mk start head _ predicates later =>
      (start.map fun separator => Lexeme.symbol separator.symbol).toList ++
        head.lexeme :: (Phrase.predicateLexemes predicates ++ StepPhrase.lexemes later)

/-- The lexemes of further paths of a union, each behind its bar. -/
def PathPhrase.otherLexemes : List PathPhrase → List Lexeme
  | [] => []
  | p :: rest => .symbol .pipe :: (p.lexemes ++ PathPhrase.otherLexemes rest)

/-- The lexemes of the further steps of a path. -/
def StepPhrase.lexemes : List StepPhrase → List Lexeme
  | [] => []
  | .mk separator head predicates :: rest =>
      .symbol separator.symbol ::
        head.lexeme :: (Phrase.predicateLexemes predicates ++ StepPhrase.lexemes rest)

/-- The lexemes of predicates, each in brackets. -/
def Phrase.predicateLexemes : List Phrase → List Lexeme
  | [] => []
  | e :: rest =>
      .symbol .openBracket ::
        (e.lexemes ++ .symbol .closeBracket :: Phrase.predicateLexemes rest)

end

/-- The text of the phrase. -/
def Phrase.source (e : Phrase) : String := written e.lexemes

end MarkupPath.Query
