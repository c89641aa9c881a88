/-
# Scanning source text

A scan reads a text rune by rune.  Between tokens it skips white space and
comments, which run from one `#` to the next.  A word is a run of ordinary runes
and denotes its bytes; a run of digits at the start of a token is a number; text
in double quotes denotes its bytes, in single quotes the bytes its hexadecimal
digits spell, in back quotes one bit per rune.  A backslash makes the next rune
ordinary.  Nothing but a number that is too large is ever at fault: quoted forms
and comments left open end with the text.
-/

import BitLang.BitSeq.Integer
import BitLang.Token

namespace BitLang

/-- The three quoted forms of a literal. -/
inductive Quote where
  | text
  | hex
  | bits
deriving DecidableEq, Repr

namespace Quote

/-- The rune that opens and closes the form. -/
def delimiter : Quote → Char
  | text => '"'
  | hex => '\''
  | bits => '\x60'

/-- The form that a rune opens, if any. -/
def opening? (rune : Rune) : Option Quote :=
  if rune.is text.delimiter then some text
  else if rune.is hex.delimiter then some hex
  else if rune.is bits.delimiter then some bits
  else none

/-- The bits that a quoted body denotes. -/
def denote (quote : Quote) (body : Bytes) : BitSeq :=
  match quote with
  | text => .ofBytes body
  | hex => .ofBytes (Hex.decodePrefix body)
  | bits => .ofDigits body

end Quote

/-- White space between tokens. -/
def Rune.isSpace (rune : Rune) : Bool :=
  rune.is ' ' || rune.is '\t' || rune.is '\r' || rune.is '\n'

/-- A decimal digit. -/
def Rune.isDigit (rune : Rune) : Bool := 0x30 ≤ rune.code && rune.code ≤ 0x39

/-- A rune that ends a word. -/
def Rune.isSeparator (rune : Rune) : Bool :=
  rune.isSpace || rune.is '#' || (Quote.opening? rune).isSome || (Lexeme.mark? rune).isSome

namespace Scanner

/-- What a scan is in the middle of.  Inside a token it holds the token's first
position, the runes read so far and, where backslashes are left out, the runes
that count, both newest first; `escaped` says that a backslash came just before. -/
inductive Mode where
  | layout
  | comment (escaped : Bool)
  | word (start : Position) (escaped : Bool) (raw content : List Rune)
  | number (start : Position) (raw : List Rune)
  | quoted (start : Position) (quote : Quote) (escaped : Bool) (raw content : List Rune)
deriving DecidableEq, Repr

/-- The literal with the given runes as its spelling, newest first. -/
def literal (start : Position) (raw : List Rune) (bits : BitSeq) : Token :=
  ⟨.literal bits, Rune.bytesOf raw.reverse, start⟩

/-- The value of a run of decimal digits. -/
def decimal (digits : Bytes) : Nat :=
  digits.foldl (fun value digit => 10 * value + (digit.toNat - 0x30)) 0

/-- The literal that a run of digits spells, or a fault if its value takes more
than 64 bits. -/
def number (start : Position) (digits : Bytes) : Token :=
  if decimal digits < 0x10000000000000000 then
    ⟨.literal (.encode (decimal digits)), digits, start⟩
  else ⟨.fault, utf8 "number literal out of range: " ++ digits, start⟩

/-- The token a mode amounts to when the text, or the token, ends here.  A word
of nothing but a backslash is no token. -/
def Mode.finish : Mode → List Token
  | layout => []
  | comment _ => []
  | word start _ raw content =>
    if content.isEmpty then []
    else [literal start raw (.ofBytes (Rune.bytesOf content.reverse))]
  | number start raw => [Scanner.number start (Rune.bytesOf raw.reverse)]
  | quoted start quote _ raw content =>
    [literal start raw (quote.denote (Rune.bytesOf content.reverse))]

/-- Starts over with a rune that belongs to no token yet: the token it is by
itself, if any, and the mode it opens. -/
def start (pos : Position) (rune : Rune) : List Token × Mode :=
  if rune.isSpace then ([], .layout)
  else if rune.is '#' then ([], .comment false)
  else match Lexeme.mark? rune with
    | some lexeme => ([⟨lexeme, rune.bytes, pos⟩], .layout)
    | none =>
      match Quote.opening? rune with
      | some quote => ([], .quoted pos quote false [rune] [])
      | none =>
        if rune.isDigit then ([], .number pos [rune])
        else if rune.is '\\' then ([], .word pos true [rune] [])
        else ([], .word pos false [rune] [rune])

/-- Reads one rune: the tokens it completes and the mode after it. -/
def step (pos : Position) (mode : Mode) (rune : Rune) : List Token × Mode :=
  match mode with
  | .layout => start pos rune
  | .comment true => ([], .comment false)
  | .comment false =>
    if rune.is '#' then ([], .layout)
    else ([], .comment (rune.is '\\'))
  | .word first true raw content => ([], .word first false (rune :: raw) (rune :: content))
  | .word first false raw content =>
    if rune.is '\\' then ([], .word first true (rune :: raw) content)
    else if rune.isSeparator then
      let (tokens, next) := start pos rune
      (mode.finish ++ tokens, next)
    else ([], .word first false (rune :: raw) (rune :: content))
  | .number first raw =>
    if rune.isDigit then ([], .number first (rune :: raw))
    else
      let (tokens, next) := start pos rune
      (mode.finish ++ tokens, next)
  | .quoted first quote true raw content =>
    ([], .quoted first quote false (rune :: raw) (rune :: content))
  | .quoted first quote false raw content =>
    if rune.is '\\' then ([], .quoted first quote true (rune :: raw) content)
    else if rune.is quote.delimiter then
      ((Mode.quoted first quote false (rune :: raw) content).finish, .layout)
    else ([], .quoted first quote false (rune :: raw) (rune :: content))

end Scanner

/-- A scan under way: where it stands, what it is in the middle of, and the tokens
completed so far. -/
structure Scanner where
  place : Place
  mode : Scanner.Mode
  tokens : Array Token

namespace Scanner

/-- A scan that has read nothing. -/
def initial : Scanner := ⟨.start, .layout, #[]⟩

/-- The scan after one more rune. -/
def read (s : Scanner) (rune : Rune) : Scanner :=
  let (tokens, mode) := step s.place.ahead s.mode rune
  ⟨s.place.pass rune, mode, tokens.foldl Array.push s.tokens⟩

/-- The token that stands for the end of the text. -/
def endToken (s : Scanner) : Token := ⟨.endOfInput, [], s.place.atEnd⟩

end Scanner

namespace Token

/-- All tokens of a text, faults included, with the end of input last. -/
def scan (source : Bytes) : List Token :=
  let s := (Rune.list source).foldl Scanner.read Scanner.initial
  s.tokens.toList ++ s.mode.finish ++ [s.endToken]

/-- The first fault among tokens. -/
def firstFault? (tokens : List Token) : Option Token :=
  tokens.find? fun token => token.lexeme == .fault

end Token

end BitLang
