/-
# Keys

A key is a byte string that identifies a bit sequence: its length as a variable
length integer of seven-bit groups, least significant group first, followed by
its packed bytes.  Reading a key accepts any prefix that such an integer may
have, and treats its value as a signed 64-bit length.
-/

import BitLang.BitSeq.Basic

namespace BitLang

namespace Varint

/-- Seven bits to a byte, least significant first; every byte but the last has
its high bit set. -/
def encode (x : Nat) : Bytes :=
  if x < 0x80 then [UInt8.ofNat x] else UInt8.ofNat (x % 0x80 + 0x80) :: encode (x / 0x80)
termination_by x

/-- Reads the groups of a 64-bit integer, `place` being the number of groups
already read and `value` what they denote.  At most ten groups are read, and the
tenth may hold a single bit. -/
def decodeFrom (place value : Nat) : Bytes → Option (Nat × Bytes)
  | [] => none
  | byte :: rest =>
    if place = 10 then none
    else if byte < 0x80 then
      if place = 9 ∧ 1 < byte then none
      else some (value + byte.toNat <<< (7 * place), rest)
    else decodeFrom (place + 1) (value + (byte.toNat - 0x80) <<< (7 * place)) rest

/-- Reads an integer below 2^64 from the front of a byte string. -/
def decode? (bytes : Bytes) : Option (Nat × Bytes) := decodeFrom 0 0 bytes

end Varint

/-- The value of a 64-bit word read as a signed integer. -/
def signed64 (word : Nat) : Int := Int.bmod word 0x10000000000000000

/-- How many bytes hold `len` bits, in signed 64-bit arithmetic, which wraps
around and divides toward zero. -/
def byteCount64 (len : Int) : Int := Int.tdiv (Int.bmod (len + 7) 0x10000000000000000) 8

namespace BitSeq

/-- A byte string that determines the sequence. -/
def key (b : BitSeq) : Bytes := Varint.encode b.len ++ b.bytes

/-- Reads a key back.  The bytes after the length must be exactly as many as the
length asks for; a length that is negative as a signed word holds no bits. -/
def ofKey? (key : Bytes) : Option BitSeq :=
  match Varint.decode? key with
  | none => none
  | some (word, data) =>
    let len := signed64 word
    if (data.length : Int) = byteCount64 len then some (ofData data len.toNat) else none

end BitSeq

end BitLang
