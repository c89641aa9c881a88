/-
# Quoted text

A text is shown between double quotes.  Printable runes stand for themselves,
the usual control characters have two-letter escapes, other runes are written by
number, and a byte outside any valid encoding is written as two hexadecimal
digits, so the quoted form is always valid text.
-/

import BitLang.Text.Printable
import BitLang.Text.Rune

namespace BitLang.Quoted

/-- The two-letter escape of a code point that has one. -/
def shortEscape? (code : Nat) : Option Char :=
  match code with
  | 0x07 => some 'a'
  | 0x08 => some 'b'
  | 0x09 => some 't'
  | 0x0A => some 'n'
  | 0x0B => some 'v'
  | 0x0C => some 'f'
  | 0x0D => some 'r'
  | 0x22 => some '"'
  | 0x5C => some '\\'
  | _ => none

/-- How one rune stands inside the quotes. -/
def rune (r : Rune) : List Char :=
  if r.isStray then '\\' :: 'x' :: r.bytes.flatMap fun byte => Hex.ofNat 2 byte.toNat
  else match shortEscape? r.code with
    | some letter => ['\\', letter]
    | none =>
      if Printable.isPrintable r.code then [Char.ofNat r.code]
      else if r.code < 0x80 then '\\' :: 'x' :: Hex.ofNat 2 r.code
      else if r.code < 0x10000 then '\\' :: 'u' :: Hex.ofNat 4 r.code
      else '\\' :: 'U' :: Hex.ofNat 8 r.code

/-- The text between double quotes. -/
def quote (text : Bytes) : String :=
  String.ofList ('"' :: (Rune.list text).flatMap rune ++ ['"'])

end BitLang.Quoted
