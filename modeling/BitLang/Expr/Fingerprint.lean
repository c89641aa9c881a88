/-
# Fingerprints

A tree is identified by the digest of its serialization: a version byte and then
the nodes in preorder, each with a tag.  Positions are left out, so the spelling
and layout of the source make no difference.
-/

import BitLang.Digest.Sha256
import BitLang.Expr.Basic

namespace BitLang.Expr

/-- A count or length: four bytes, most significant first. -/
def count32 (n : Nat) : Bytes := bigEndian 4 (n % 0x100000000)

mutual

/-- Puts the serialization of a node before the given bytes. -/
def serializeOnto : Expr → Bytes → Bytes
  | absent, rest => 0x01 :: rest
  | literal _ bits, rest => 0x02 :: (count32 bits.len ++ (bits.bytes ++ rest))
  | scope _, rest => 0x03 :: rest
  | set _ entries, rest => 0x10 :: (count32 entries.length ++ serializeEntries entries rest)
  | function _ pattern body, rest => 0x11 :: pattern.serializeOnto (body.serializeOnto rest)
  | combine _ left right, rest => 0x12 :: left.serializeOnto (right.serializeOnto rest)

/-- Puts the serializations of set entries, key before value, before the given
bytes. -/
def serializeEntries : List (Expr × Expr) → Bytes → Bytes
  | [], rest => rest
  | (key, value) :: entries, rest =>
    key.serializeOnto (value.serializeOnto (serializeEntries entries rest))

end

/-- The serialization of a tree, with the version of the format in front. -/
def serialize (e : Expr) : Bytes := 0x01 :: e.serializeOnto []

/-- The digest that identifies a tree. -/
def fingerprint (e : Expr) : Bytes := Sha256.digest e.serialize

/-- The fingerprint in hexadecimal. -/
def fingerprintHex (e : Expr) : String := Hex.encode e.fingerprint

end BitLang.Expr
