/-
# Packing bits into bytes

Bits fill bytes from the most significant end.  A run of bits whose length is
not a multiple of eight ends in a byte whose unused low bits are clear.
-/

import BitLang.Text.Bytes

namespace BitLang

/-- The byte with the given bits, most significant first. -/
def packByte (a b c d e f g h : Bool) : UInt8 :=
  (if a then 0x80 else 0) ||| (if b then 0x40 else 0) ||| (if c then 0x20 else 0)
    ||| (if d then 0x10 else 0) ||| (if e then 0x08 else 0) ||| (if f then 0x04 else 0)
    ||| (if g then 0x02 else 0) ||| (if h then 0x01 else 0)

/-- The eight bits of a byte, most significant first. -/
def byteBits (byte : UInt8) : List Bool :=
  [byte &&& 0x80 != 0, byte &&& 0x40 != 0, byte &&& 0x20 != 0, byte &&& 0x10 != 0,
    byte &&& 0x08 != 0, byte &&& 0x04 != 0, byte &&& 0x02 != 0, byte &&& 0x01 != 0]

/-- The bits of a byte string, byte by byte. -/
def unpack (bytes : Bytes) : List Bool := bytes.flatMap byteBits

/-- The bytes that hold a run of bits, the last one filled up with clear bits. -/
def pack : List Bool → Bytes
  | a :: b :: c :: d :: e :: f :: g :: h :: rest => packByte a b c d e f g h :: pack rest
  | [] => []
  | rest =>
    let bit (i : Nat) : Bool := rest[i]?.getD false
    [packByte (bit 0) (bit 1) (bit 2) (bit 3) (bit 4) (bit 5) (bit 6) false]

/-- How many bytes hold `len` bits. -/
def byteCount (len : Nat) : Nat := (len + 7) / 8

/-- The mask that keeps the `used` most significant bits of a byte. -/
def highMask (used : Nat) : UInt8 := UInt8.ofNat (0xFF <<< (8 - used))

end BitLang
