/-
# Byte strings

Source text, keys, stored results and everything the program writes are byte
strings: a source may hold bytes that are not UTF-8, and they survive unchanged.
This module fixes the type, numbers of fixed width, and the hexadecimal text of a
byte string.
-/

namespace BitLang

/-- A finite string of bytes. -/
abbrev Bytes := List UInt8

/-- The UTF-8 bytes of a text. -/
def utf8 (text : String) : Bytes := text.toUTF8.data.toList

/-- A number as `width` bytes, most significant first. -/
def bigEndian : (width value : Nat) → Bytes
  | 0, _ => []
  | width + 1, value => bigEndian width (value / 256) ++ [UInt8.ofNat (value % 256)]

/-- The number that bytes denote, most significant first. -/
def ofBigEndian (bytes : Bytes) : Nat := bytes.foldl (fun value byte => 256 * value + byte.toNat) 0

/-- The first `n` bytes and the rest, if there are that many. -/
def takeExactly? (n : Nat) (bytes : Bytes) : Option (Bytes × Bytes) :=
  let front := bytes.take n
  if front.length = n then some (front, bytes.drop n) else none

/-- One more byte in front of a list of pieces. -/
def prependByte (separator byte : UInt8) (pieces : List Bytes) : List Bytes :=
  if byte = separator then [] :: pieces
  else match pieces with
    | [] => [[byte]]
    | piece :: rest => (byte :: piece) :: rest

/-- The stretches between separators, empty ones included. -/
def pieces (separator : UInt8) (bytes : Bytes) : List Bytes :=
  bytes.foldr (prependByte separator) [[]]

namespace Hex

/-- The lower-case hexadecimal digit of a number below sixteen. -/
def digit (value : Nat) : Char :=
  if value < 10 then Char.ofNat (48 + value) else Char.ofNat (87 + value)

/-- The last `width` hexadecimal digits of `value`, most significant first. -/
def ofNat : (width value : Nat) → List Char
  | 0, _ => []
  | width + 1, value => ofNat width (value / 16) ++ [digit (value % 16)]

/-- Two lower-case digits for every byte. -/
def encode (bytes : Bytes) : String :=
  String.ofList (bytes.flatMap fun byte => [digit (byte.toNat / 16), digit (byte.toNat % 16)])

/-- The value of a hexadecimal digit of either case, given as a code point. -/
def digitValue? (code : Nat) : Option Nat :=
  if 48 ≤ code ∧ code ≤ 57 then some (code - 48)
  else if 97 ≤ code ∧ code ≤ 102 then some (code - 87)
  else if 65 ≤ code ∧ code ≤ 70 then some (code - 55)
  else none

/-- The bytes spelled by the longest prefix made of complete digit pairs; whatever
follows the first incomplete or invalid pair is ignored. -/
def decodePrefix : Bytes → Bytes
  | high :: low :: rest =>
    match digitValue? high.toNat, digitValue? low.toNat with
    | some h, some l => UInt8.ofNat (16 * h + l) :: decodePrefix rest
    | _, _ => []
  | _ => []

end Hex

end BitLang
