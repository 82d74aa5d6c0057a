import MarkupPath.Number.Text

/-!
# Tokens of expressions

A token is a symbol, a number, a string, a name or the end of the expression, with the number of
characters before it. The words among the symbols are operators only where an operand has ended, and
`not` is a name where a step is due; the lexer decides that.
-/

set_option autoImplicit false

namespace MarkupPath.Query

/-- Operators, brackets and separators. -/
inductive Symbol where
  | slash
  | doubleSlash
  | dot
  | doubleDot
  | atSign
  | pipe
  | plus
  | minus
  | star
  | equal
  | notEqual
  | less
  | lessEqual
  | greater
  | greaterEqual
  | and
  | or
  | not
  | mod
  | div
  | openParen
  | closeParen
  | openBracket
  | closeBracket
  | comma
  deriving DecidableEq, Repr

/-- How a symbol is written. -/
def Symbol.spelling : Symbol → String
  | .slash => "/"
  | .doubleSlash => "//"
  | .dot => "."
  | .doubleDot => ".."
  | .atSign => "@"
  | .pipe => "|"
  | .plus => "+"
  | .minus => "-"
  | .star => "*"
  | .equal => "="
  | .notEqual => "!="
  | .less => "<"
  | .lessEqual => "<="
  | .greater => ">"
  | .greaterEqual => ">="
  | .and => "and"
  | .or => "or"
  | .not => "not"
  | .mod => "mod"
  | .div => "div"
  | .openParen => "("
  | .closeParen => ")"
  | .openBracket => "["
  | .closeBracket => "]"
  | .comma => ","

/-- What a token is. -/
inductive TokenKind where
  | symbol (s : Symbol)
  | number (value : Float)
  | string (value : String)
  | name (value : String)
  | stop
  deriving Repr

namespace TokenKind

/-- The token as it is named in messages. -/
def description : TokenKind → String
  | .symbol s => "'" ++ s.spelling ++ "'"
  | .number value => "number " ++ Number.plain value
  | .string value => "string '" ++ value ++ "'"
  | .name value => "name '" ++ value ++ "'"
  | .stop => "end of expression"

/-- The token is a given symbol. -/
def isSymbol (s : Symbol) : TokenKind → Bool
  | .symbol t => t == s
  | _ => false

/-- The token is the end of the expression. -/
def isStop : TokenKind → Bool
  | .stop => true
  | _ => false

end TokenKind

/-- A token and the number of characters before it. -/
structure Token where
  kind : TokenKind
  offset : Nat
  deriving Repr

end MarkupPath.Query
