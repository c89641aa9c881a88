/-
# Integers as bit sequences

A natural number is written least significant bit first, in as few bits as it
needs, and zero as a single clear bit.  Reading back looks at the first 64 bits
only, so every number below 2^64 survives the round trip.
-/

import BitLang.BitSeq.Basic

namespace BitLang.BitSeq

/-- The shortest sequence that denotes `x`: bit `i` is binary digit `i` of `x`,
counted from the least significant, and zero takes one bit. -/
def encode (x : Nat) : BitSeq := ofList ((List.range (x.log2 + 1)).map x.testBit)

/-- The number a list of bits denotes, least significant bit first. -/
def natOf (bits : List Bool) : Nat :=
  bits.foldr (fun bit rest => bit.toNat + 2 * rest) 0

/-- The number denoted by the first 64 bits. -/
def decode (b : BitSeq) : Nat := natOf (b.toList.take 64)

end BitLang.BitSeq
