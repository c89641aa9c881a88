/-
# Locations in an editor

An editor counts lines and characters from zero, in 32-bit words, and a character
is a rune.  This module converts between locations, byte offsets and source
positions, and finds the token at an offset.
-/

import BitLang.Token.Scanner

namespace BitLang.Editor

/-- A line and a character on it, both counted from zero. -/
structure Location where
  line : Nat
  character : Nat
deriving DecidableEq, Repr, Inhabited

/-- A stretch of text between two locations. -/
structure Range where
  start : Location
  stop : Location
deriving DecidableEq, Repr, Inhabited

/-- One less, in 32-bit words. -/
def pred32 (n : Nat) : Nat := (n + 0xFFFFFFFF) % 0x100000000

/-- One more, in 32-bit words. -/
def succ32 (n : Nat) : Nat := (n + 1) % 0x100000000

namespace Location

/-- The location of a source position; no position is the start of the text. -/
def ofPosition (pos : Position) : Location :=
  if pos.line = 0 then ⟨0, 0⟩ else ⟨pred32 pos.line, pred32 pos.column⟩

/-- The location behind one more rune. -/
def pass (location : Location) (rune : Rune) : Location :=
  if rune.is '\n' then ⟨succ32 location.line, 0⟩
  else ⟨location.line, succ32 location.character⟩

end Location

/-- What follows the next `lines` newlines, and its offset; nothing if there are
not that many. -/
def skipLines : (lines offset : Nat) → Bytes → Option (Nat × Bytes)
  | 0, offset, text => some (offset, text)
  | _ + 1, _, [] => none
  | lines + 1, offset, byte :: rest =>
    if byte = 0x0A then skipLines lines (offset + 1) rest
    else skipLines (lines + 1) (offset + 1) rest

/-- The byte offset of a location.  A character past the end of its line stands
for that end, a line past the end of the text for the end of the text. -/
def offsetOf (text : Bytes) (location : Location) : Nat :=
  match skipLines location.line 0 text with
  | none => text.length
  | some (offset, rest) =>
    let before := ((Rune.list rest).take location.character).takeWhile fun rune => !rune.is '\n'
    offset + (Rune.bytesOf before).length

/-- The first of the tokens whose text covers an offset. -/
def findToken (offset : Int) : List Token → Option Token
  | [] => none
  | token :: rest =>
    if token.lexeme = .endOfInput ∨ offset < token.pos.offset then none
    else if offset < token.pos.offset + token.text.length then some token
    else findToken offset rest

/-- The token of a text at an offset. -/
def tokenAt (text : Bytes) (offset : Int) : Option Token := findToken offset (Token.scan text)

/-- The stretch of text that a token's spelling takes. -/
def tokenRange (token : Token) : Range :=
  let start := Location.ofPosition token.pos
  ⟨start, (Rune.list token.text).foldl Location.pass start⟩

end BitLang.Editor
