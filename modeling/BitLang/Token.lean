/-
# Tokens

A source text is a sequence of literals and punctuation marks.  Whatever its
spelling, a literal denotes a bit sequence.  A fault takes the place of a literal
that denotes nothing, with a message in place of its spelling.
-/

import BitLang.BitSeq.Basic
import BitLang.Position
import BitLang.Text.Quoted

namespace BitLang

/-- What a token is, apart from its spelling. -/
inductive Lexeme where
  | endOfInput
  | fault
  | literal (bits : BitSeq)
  | scope
  | openParen
  | closeParen
  | openBrace
  | closeBrace
  | equals
  | semicolon
  | colon
  | unassigned (code : Int)
deriving DecidableEq, Repr, Inhabited

namespace Lexeme

/-- The name a kind of token goes by in messages. -/
def name : Lexeme → String
  | endOfInput => "EOF"
  | fault => "ERROR"
  | literal _ => "LITERAL"
  | scope => "$"
  | openParen => "("
  | closeParen => ")"
  | openBrace => "\x7b"
  | closeBrace => "\x7d"
  | equals => "="
  | semicolon => ";"
  | colon => ":"
  | unassigned code => "Token(" ++ toString code ++ ")"

/-- The kind of token with a given number; a literal takes the given bits. -/
def ofCode (code : Int) (bits : BitSeq) : Lexeme :=
  match code with
  | 0 => endOfInput
  | 1 => fault
  | 2 => literal bits
  | 3 => scope
  | 4 => openParen
  | 5 => closeParen
  | 6 => openBrace
  | 7 => closeBrace
  | 8 => equals
  | 9 => semicolon
  | 10 => colon
  | _ => unassigned code

/-- The punctuation mark that a rune is, if it is one. -/
def mark? (rune : Rune) : Option Lexeme :=
  if rune.is '$' then some scope
  else if rune.is '(' then some openParen
  else if rune.is ')' then some closeParen
  else if rune.is '{' then some openBrace
  else if rune.is '}' then some closeBrace
  else if rune.is '=' then some equals
  else if rune.is ';' then some semicolon
  else if rune.is ':' then some colon
  else none

end Lexeme

/-- A lexeme with its spelling and the position of its first rune.  The spelling
of a fault is its message. -/
structure Token where
  lexeme : Lexeme
  text : Bytes
  pos : Position
deriving DecidableEq, Repr, Inhabited

namespace Token

/-- How many bytes of a literal's spelling are shown. -/
def shownBytes : Nat := 20

/-- The token as it is listed: a literal with the start of its spelling and its
bit count, a fault with its message, a mark by its name. -/
def render (token : Token) : Bytes :=
  match token.lexeme with
  | .fault => utf8 "ERROR(" ++ token.text ++ utf8 ")"
  | .literal bits =>
    let shown :=
      if shownBytes < token.text.length then token.text.take shownBytes ++ utf8 "..."
      else token.text
    utf8 ("LITERAL(" ++ Quoted.quote shown ++ " len=" ++ toString bits.len ++ ")")
  | lexeme => utf8 lexeme.name

/-- The position behind the token's spelling, taken to stay on its line. -/
def stop (token : Token) : Position :=
  ⟨token.pos.offset + token.text.length, token.pos.line, token.pos.column + runeCount token.text⟩

/-- The stretch of source the token takes. -/
def span (token : Token) : Span := ⟨token.pos, token.stop⟩

end Token

end BitLang
