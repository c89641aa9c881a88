/-
# Bit sequences

The bit sequence is the only primitive datum of the language.  It is stored as
its length and its packed bytes.  Every operation here keeps the packing
canonical: exactly as many bytes as the length needs, and clear unused bits at
the end, so that two sequences are the same exactly when they hold the same
bits.  `toList` is the view the operations are understood through.
-/

import BitLang.BitSeq.Packing
import BitLang.Text.Rune

namespace BitLang

/-- A sequence of bits, packed into bytes most significant bit first. -/
structure BitSeq where
  len : Nat
  bytes : Bytes
deriving DecidableEq, Repr, Inhabited

namespace BitSeq

/-- The sequence without bits. -/
def empty : BitSeq := ⟨0, []⟩

/-- The bits, first to last. -/
def toList (b : BitSeq) : List Bool := (unpack b.bytes).take b.len

/-- The sequence of the given bits. -/
def ofList (bits : List Bool) : BitSeq := ⟨bits.length, pack bits⟩

/-- The packing holds no byte too many or too few and no stray bit at the end. -/
def Canonical (b : BitSeq) : Prop :=
  b.bytes.length = byteCount b.len ∧ ∀ bit ∈ (unpack b.bytes).drop b.len, bit = false

/-- Clears all but the `used` most significant bits of the last byte. -/
def trimLast (used : Nat) : Bytes → Bytes
  | [] => []
  | [last] => [last &&& highMask used]
  | byte :: rest => byte :: trimLast used rest

/-- The first `len` bits of `data`, followed by clear bits where `data` is too
short.  Bits of `data` past `len` are dropped. -/
def ofData (data : Bytes) (len : Nat) : BitSeq :=
  let count := byteCount len
  let filled := data.take count ++ List.replicate (count - data.length) 0
  ⟨len, if len % 8 = 0 then filled else trimLast (len % 8) filled⟩

/-- Every bit of a byte string. -/
def ofBytes (bytes : Bytes) : BitSeq := ofData bytes (8 * bytes.length)

/-- One bit for every rune of a text: set for the rune `1`, clear for any other. -/
def ofDigits (text : Bytes) : BitSeq :=
  ofList ((Rune.list text).map fun rune => rune.is '1')

/-- The bit at position `i`; clear past the end. -/
def get (b : BitSeq) (i : Nat) : Bool :=
  match b.bytes[i / 8]? with
  | some byte => (byteBits byte).getD (i % 8) false
  | none => false

/-- The bits as a text of `0` and `1`. -/
def digits (b : BitSeq) : String :=
  String.ofList (b.toList.map fun bit => if bit then '1' else '0')

/-- The bits of `a` followed by the bits of `b`.  When `a` fills whole bytes the
bytes of `b` follow as they are; otherwise the bits of `b` continue the last byte
of `a`. -/
def append (a b : BitSeq) : BitSeq :=
  if a.len % 8 = 0 then ⟨a.len + b.len, a.bytes ++ b.bytes⟩
  else
    let whole := a.bytes.take (a.len / 8)
    let open_ := (unpack (a.bytes.drop (a.len / 8))).take (a.len % 8)
    ⟨a.len + b.len, whole ++ pack (open_ ++ b.toList)⟩

instance : Append BitSeq := ⟨append⟩

/-- The bits from position `start` up to but not including `stop`; none when
`stop` does not lie behind `start`.  A window that starts on a byte boundary
takes its bytes as they are. -/
def slice (b : BitSeq) (start stop : Nat) : BitSeq :=
  let len := stop - start
  let bytes := b.bytes.drop (start / 8)
  if start % 8 = 0 then ofData bytes len
  else ofList (((unpack (bytes.take (byteCount len + 1))).drop (start % 8)).take len)

/-- Orders sequences by length and then by their bytes. -/
def cmp : BitSeq → BitSeq → Ordering :=
  compareLex (compareOn BitSeq.len) (compareOn BitSeq.bytes)

end BitSeq

end BitLang
