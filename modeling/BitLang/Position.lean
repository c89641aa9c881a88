/-
# Source positions

A position names a place in a source text by byte offset, line and column.
Lines and columns count from one, columns in runes.  The position without a
line stands for "nowhere in the text".
-/

import BitLang.Text.Rune

namespace BitLang

/-- A place in a source text. -/
structure Position where
  offset : Nat
  line : Nat
  column : Nat
deriving DecidableEq, Repr, Inhabited

/-- The position of something that does not stand in the text. -/
def Position.none : Position := ⟨0, 0, 0⟩

/-- A stretch of source text, from its first position to the one behind its end. -/
structure Span where
  start : Position
  stop : Position
deriving DecidableEq, Repr, Inhabited

/-- How far a scan has come: the bytes passed, the current line, and the runes
passed on it. -/
structure Place where
  offset : Nat
  line : Nat
  column : Nat
deriving DecidableEq, Repr

namespace Place

/-- Where every text begins. -/
def start : Place := ⟨0, 1, 0⟩

/-- The place behind one more rune; a newline opens the next line. -/
def pass (place : Place) (rune : Rune) : Place :=
  if rune.is '\n' then ⟨place.offset + rune.bytes.length, place.line + 1, 0⟩
  else ⟨place.offset + rune.bytes.length, place.line, place.column + 1⟩

/-- The position of the rune that follows. -/
def ahead (place : Place) : Position := ⟨place.offset, place.line, place.column + 1⟩

/-- The position of the end of the text, which lies on the last rune of its line. -/
def atEnd (place : Place) : Position := ⟨place.offset, place.line, place.column⟩

end Place

end BitLang
