import MarkupPath.Query.Token

/-!
# Faults of expressions

What can be wrong with the text of an expression, where it shows, and how it is reported: in a
sentence with `SyntaxError.message`, and with `caretBelow` as the expression with a caret under the
place.
-/

set_option autoImplicit false

namespace MarkupPath.Query

/-- What can be wrong with an expression. -/
inductive SyntaxFault where
  | character (c : Char)
  | openString
  | depth (limit : Nat)
  | surplus (found : TokenKind)
  | missing (expected : Symbol) (found : TokenKind)
  | operand (found : TokenKind)
  | stepAfterSlash (found : TokenKind)
  | step (found : TokenKind)
  | attributeName (found : TokenKind)
  | attributeInside
  | attributePredicate
  | unionOperand
  | unknownFunction (name : String)
  | arity (name : String) (takes found : Nat)
  deriving Repr

/-- The fault in words. -/
def SyntaxFault.message : SyntaxFault → String
  | .character c => "unexpected character '" ++ String.singleton c ++ "'"
  | .openString => "unterminated string literal"
  | .depth limit => "expression nests deeper than " ++ toString limit ++ " levels"
  | .surplus found => "unexpected " ++ found.description
  | .missing expected found =>
      "expected " ++ (TokenKind.symbol expected).description ++ ", found " ++ found.description
  | .operand found => "expected an operand, found " ++ found.description
  | .stepAfterSlash found => "expected a step after '/', found " ++ found.description
  | .step found => "expected a step, found " ++ found.description
  | .attributeName found => "expected an attribute name after '@', found " ++ found.description
  | .attributeInside => "an attribute step must be the last step of a path"
  | .attributePredicate => "attribute steps cannot take predicates"
  | .unionOperand => "operands of '|' must be element paths"
  | .unknownFunction name => "unknown function '" ++ name ++ "()'"
  | .arity name takes found =>
      name ++ "() takes " ++ toString takes ++ " argument" ++ (if takes == 1 then "" else "s") ++
        ", found " ++ toString found

/-- A fault and the number of characters before the place where it shows. -/
structure SyntaxError where
  fault : SyntaxFault
  offset : Nat
  deriving Repr

/-- A complaint about a place of an expression, in a sentence. -/
def complaintAt (offset : Nat) (complaint : String) : String :=
  "syntax error at offset " ++ toString offset ++ ": " ++ complaint

/-- The error in words. -/
def SyntaxError.message (e : SyntaxError) : String := complaintAt e.offset e.fault.message

/-- An expression, and below it a complaint behind a caret that stands under the character at
`offset`. Tabs before the caret are kept so that it lines up. -/
def caretBelow (offset : Nat) (complaint : String) (source : String) : String :=
  let padding := (source.toList.take offset).map fun c => if c == '\t' then '\t' else ' '
  source ++ "\n" ++ String.ofList padding ++ "^ " ++ complaint

/-- The expression with the error below the place where it shows. -/
def SyntaxError.caret (e : SyntaxError) (source : String) : String :=
  caretBelow e.offset e.fault.message source

end MarkupPath.Query
