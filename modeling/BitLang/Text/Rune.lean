/-
# Runes

A text is read rune by rune.  A rune is a UTF-8 encoded scalar value together
with the bytes that spell it, or a single byte that starts no valid encoding;
such a byte reads as the replacement character.  The bytes of the runes of a
text, one after another, are the text again.
-/

import BitLang.Text.Bytes

namespace BitLang

/-- One step through a text: a code point and the bytes that spell it. -/
structure Rune where
  code : Nat
  bytes : Bytes
deriving DecidableEq, Repr

namespace Rune

/-- The code point that stands for a byte outside any valid encoding. -/
def replacement : Nat := 0xFFFD

/-- A byte that may continue an encoding. -/
def isContinuation (byte : UInt8) : Bool := 0x80 ≤ byte && byte ≤ 0xBF

/-- The low six bits, which a continuation byte contributes. -/
def payload (byte : UInt8) : Nat := (byte &&& 0x3F).toNat

/-- The two-byte encoding that starts with `lead`, if there is one. -/
def two? (lead : UInt8) : Bytes → Option Rune
  | b :: _ =>
    if 0xC2 ≤ lead && lead ≤ 0xDF && isContinuation b then
      some ⟨(lead &&& 0x1F).toNat * 64 + payload b, [lead, b]⟩
    else none
  | _ => none

/-- The three-byte encoding that starts with `lead`, if there is one: neither
overlong nor a surrogate. -/
def three? (lead : UInt8) : Bytes → Option Rune
  | b :: c :: _ =>
    if 0xE0 ≤ lead && lead ≤ 0xEF && isContinuation b && isContinuation c
        && (lead != 0xE0 || 0xA0 ≤ b) && (lead != 0xED || b ≤ 0x9F) then
      some ⟨((lead &&& 0x0F).toNat * 64 + payload b) * 64 + payload c, [lead, b, c]⟩
    else none
  | _ => none

/-- The four-byte encoding that starts with `lead`, if there is one: neither
overlong nor above the last code point. -/
def four? (lead : UInt8) : Bytes → Option Rune
  | b :: c :: d :: _ =>
    if 0xF0 ≤ lead && lead ≤ 0xF4 && isContinuation b && isContinuation c && isContinuation d
        && (lead != 0xF0 || 0x90 ≤ b) && (lead != 0xF4 || b ≤ 0x8F) then
      some ⟨(((lead &&& 0x07).toNat * 64 + payload b) * 64 + payload c) * 64 + payload d,
        [lead, b, c, d]⟩
    else none
  | _ => none

/-- The rune at the front of the text `lead :: rest`. -/
def first (lead : UInt8) (rest : Bytes) : Rune :=
  if lead < 0x80 then ⟨lead.toNat, [lead]⟩
  else ((two? lead rest).or ((three? lead rest).or (four? lead rest))).getD ⟨replacement, [lead]⟩

/-- The runes of a text after `skip` more bytes of the rune before have passed. -/
def listFrom : (skip : Nat) → Bytes → List Rune
  | _, [] => []
  | skip + 1, _ :: rest => listFrom skip rest
  | 0, lead :: rest =>
    let rune := first lead rest
    rune :: listFrom (rune.bytes.length - 1) rest

/-- The runes of a text, in order. -/
def list (text : Bytes) : List Rune := listFrom 0 text

/-- The rune is the character `c`. -/
def is (rune : Rune) (c : Char) : Bool := rune.code == c.toNat

/-- The rune is a byte that belongs to no valid encoding. -/
def isStray (rune : Rune) : Bool := rune.code == replacement && rune.bytes.length == 1

/-- The bytes of a run of runes. -/
def bytesOf (runes : List Rune) : Bytes := runes.flatMap Rune.bytes

end Rune

/-- The number of runes of a text; a stray byte counts as one. -/
def runeCount (text : Bytes) : Nat := (Rune.list text).length

/-- Every byte of the text belongs to a valid encoding. -/
def isUtf8 (text : Bytes) : Bool := (Rune.list text).all fun rune => !rune.isStray

end BitLang
