/-
# Trimming

White space at either end of a text is taken off.  White space is what Unicode
calls so: the ASCII blanks, the next-line and no-break spaces, and the spaces and
line separators of the general punctuation block and around it.
-/

import BitLang.Text.Rune

namespace BitLang

/-- A code point that counts as white space. -/
def isWhiteSpace (code : Nat) : Bool :=
  (0x09 ≤ code && code ≤ 0x0D) || code == 0x20 || code == 0x85 || code == 0xA0
    || code == 0x1680 || (0x2000 ≤ code && code ≤ 0x200A) || code == 0x2028 || code == 0x2029
    || code == 0x202F || code == 0x205F || code == 0x3000

/-- The text without white space at its ends. -/
def trim (text : Bytes) : Bytes :=
  let isBlank (rune : Rune) : Bool := isWhiteSpace rune.code
  let front := (Rune.list text).dropWhile isBlank
  Rune.bytesOf (front.reverse.dropWhile isBlank).reverse

end BitLang
