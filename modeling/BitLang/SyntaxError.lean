/-
# Syntax errors

A text that is no expression is rejected for one cause at one position.  Two of
the causes, an open parenthesis and an open set, are marked as incomplete: more
text may still close what was left open.
-/

import BitLang.Token

namespace BitLang

/-- Why a text is no expression. -/
inductive SyntaxError.Cause where
  | fault (message : Bytes)
  | strayTerminator (lexeme : Lexeme)
  | unexpectedToken (token : Token)
  | unclosedParen
  | expectedCloseParen (found : Lexeme)
  | unterminatedSet
  | closeParenInSet
  | missingKey
  | tooDeep
deriving DecidableEq, Repr

/-- A cause and the position it is reported at. -/
structure SyntaxError where
  pos : Position
  cause : SyntaxError.Cause
deriving DecidableEq, Repr

/-- How deeply parentheses, sets and function bodies may nest. -/
def maxNesting : Nat := 10000

namespace SyntaxError

/-- The cause in words. -/
def Cause.describe : Cause → Bytes
  | fault message => message
  | strayTerminator lexeme => utf8 ("unexpected " ++ lexeme.name)
  | unexpectedToken token => utf8 "unexpected " ++ token.render
  | unclosedParen => utf8 "unclosed '('"
  | expectedCloseParen found => utf8 ("expected ')', got " ++ found.name)
  | unterminatedSet => utf8 "unterminated set"
  | closeParenInSet => utf8 "unexpected ')' in set"
  | missingKey => utf8 "missing key before '='"
  | tooDeep => utf8 ("nesting deeper than " ++ toString maxNesting ++ " levels")

/-- More text could still make the input valid. -/
def isIncomplete (e : SyntaxError) : Bool :=
  match e.cause with
  | .unclosedParen | .unterminatedSet => true
  | _ => false

/-- The error as it is reported, with its line and column. -/
def message (e : SyntaxError) : Bytes :=
  utf8 ("line " ++ toString e.pos.line ++ ":" ++ toString e.pos.column ++ ": ")
    ++ e.cause.describe

end SyntaxError

end BitLang
