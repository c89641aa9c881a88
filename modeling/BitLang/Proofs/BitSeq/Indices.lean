/-
# Bit sequences, index by index

The operations on bit sequences are given here once more, the way they are carried out:
bits are read at positions of packed bytes, and set at positions of a buffer that was made
for the result.  A position outside of the bytes leaves an operation without a result.

On canonical sequences, and windows that lie inside, no position is outside, and the result
is that of the operation.
-/

import BitLang.Proofs.BitSeq.Canonical

namespace BitLang

/-! ## Reading and writing one by one -/

/-- What stands at `count` positions in a row, if there is something at each. -/
def readFrom? {α : Type} (at? : Nat → Option α) (start : Nat) : (count : Nat) → Option (List α)
  | 0 => some []
  | count + 1 => do
    let first ← at? start
    let rest ← readFrom? at? (start + 1) count
    some (first :: rest)

theorem readFrom?_eq {α : Type} {at? : Nat → Option α} {l : List α} (hat : ∀ i, at? i = l[i]?)
    {start count : Nat} (h : start + count ≤ l.length) :
    readFrom? at? start count = some ((l.drop start).take count) := by
  induction count generalizing start with
  | zero => simp [readFrom?]
  | succ count ih =>
      have hstart : start < l.length := by omega
      rw [readFrom?, hat, List.getElem?_eq_getElem hstart, ih (by omega),
        List.drop_eq_getElem_cons hstart, List.take_succ_cons]
      rfl

/-- The bit at a position, if there is a byte for it. -/
def bitAt? (bytes : Bytes) (i : Nat) : Option Bool :=
  bytes[i / 8]?.bind fun byte => (byteBits byte)[i % 8]?

/-- Sets the bit at a position, if there is a byte for it. -/
def setBit? (buffer : Bytes) (i : Nat) : Option Bytes :=
  buffer[i / 8]?.bind fun byte =>
    bitPlaces[i % 8]?.map fun place => buffer.set (i / 8) (byte ||| place)

/-- Sets the bit at a position if it is to be set. -/
def writeBit? (buffer : Bytes) (i : Nat) (bit : Bool) : Option Bytes :=
  if bit then setBit? buffer i else some buffer

/-- Writes bits one by one onto a buffer. -/
def writeBits? (buffer : Bytes) (start : Nat) : List Bool → Option Bytes
  | [] => some buffer
  | bit :: rest => do
    let buffer ← writeBit? buffer start bit
    writeBits? buffer (start + 1) rest

/-- A position in bytes is one of the first byte or one further on in the others. -/
theorem position_cases (i : Nat) : i < 8 ∨ ∃ j, i = j + 8 := by
  by_cases h : i < 8
  · exact .inl h
  · exact .inr ⟨i - 8, by omega⟩

theorem bitAt?_eq (bytes : Bytes) (i : Nat) : bitAt? bytes i = (unpack bytes)[i]? := by
  induction bytes generalizing i with
  | nil => simp [bitAt?, unpack]
  | cons byte rest ih =>
      rw [unpack_cons]
      rcases position_cases i with hi | ⟨j, rfl⟩
      · rw [List.getElem?_append_left hi, bitAt?, Nat.div_eq_of_lt hi, Nat.mod_eq_of_lt hi]
        rfl
      · rw [List.getElem?_append_right (Nat.le_add_left 8 j)]
        rw [bitAt?, Nat.add_div_right j (by decide), Nat.add_mod_right]
        exact ih j

example : bitAt? [0x80] 0 = some true ∧ bitAt? [0x80] 8 = none := by decide

/-- Bits of bytes, read one by one. -/
def readBits? (bytes : Bytes) (start count : Nat) : Option (List Bool) :=
  readFrom? (bitAt? bytes) start count

theorem readBits?_eq {bytes : Bytes} {start count : Nat} (h : start + count ≤ 8 * bytes.length) :
    readBits? bytes start count = some (((unpack bytes).drop start).take count) :=
  readFrom?_eq (bitAt?_eq bytes) (by rw [length_unpack]; exact h)

theorem or_and_bne_zero (a b place : UInt8) :
    ((a ||| b) &&& place != 0) = ((a &&& place != 0) || (b &&& place != 0)) := by
  have hdistrib : (a ||| b) &&& place = a &&& place ||| b &&& place := by
    apply UInt8.toBitVec_inj.mp
    ext i
    simp [Bool.and_or_distrib_right]
  rw [hdistrib, Bool.eq_iff_iff]
  simp only [bne_iff_ne, ne_eq, Bool.or_eq_true, UInt8.or_eq_zero_iff, not_and_or]

theorem byteBits_or (a b : UInt8) :
    byteBits (a ||| b) = List.zipWith (· || ·) (byteBits a) (byteBits b) := by
  simp only [byteBits, or_and_bne_zero, List.zipWith_cons_cons, List.zipWith_nil_left]

theorem zipWith_or_clear (bits : List Bool) :
    List.zipWith (· || ·) bits (List.replicate bits.length false) = bits := by
  induction bits with
  | nil => rfl
  | cons bit rest ih => simp [List.replicate_succ, ih]

theorem zipWith_or_set (bits : List Bool) (i : Nat) :
    List.zipWith (· || ·) bits ((List.replicate bits.length false).set i true) =
      bits.set i true := by
  induction bits generalizing i with
  | nil => rfl
  | cons bit rest ih =>
      cases i with
      | zero => simp [List.replicate_succ, zipWith_or_clear]
      | succ i => simp [List.replicate_succ, ih]

/-- Setting a place of a byte sets that bit. -/
theorem byteBits_or_place (byte : UInt8) {i : Nat} (hi : i < 8) :
    ∃ place, bitPlaces[i]? = some place ∧
      byteBits (byte ||| place) = (byteBits byte).set i true := by
  have hplaces : ∀ i : Fin 8, ∃ place, bitPlaces[i.val]? = some place ∧
      byteBits place = (List.replicate 8 false).set i true :=
    fun i => ⟨bitPlaces.get i, List.getElem?_eq_getElem i.isLt, by revert i; decide⟩
  obtain ⟨place, hplace, hbits⟩ := hplaces ⟨i, hi⟩
  refine ⟨place, hplace, ?_⟩
  rw [byteBits_or, hbits]
  exact zipWith_or_set (byteBits byte) i

theorem exists_setBit? {buffer : Bytes} {i : Nat} (h : i < 8 * buffer.length) :
    ∃ result, setBit? buffer i = some result ∧ unpack result = (unpack buffer).set i true := by
  induction buffer generalizing i with
  | nil => exact absurd h (Nat.not_lt_zero i)
  | cons byte rest ih =>
      rcases position_cases i with hi | ⟨j, rfl⟩
      · obtain ⟨place, hplace, hbits⟩ := byteBits_or_place byte hi
        refine ⟨(byte ||| place) :: rest, ?_, ?_⟩
        · rw [setBit?, Nat.div_eq_of_lt hi, Nat.mod_eq_of_lt hi, hplace]
          rfl
        · rw [unpack_cons, unpack_cons, hbits, List.set_append_left _ _ hi]
      · rw [List.length_cons] at h
        obtain ⟨result, hresult, hbits⟩ := @ih j (by omega)
        refine ⟨byte :: result, ?_, ?_⟩
        · obtain ⟨last, hlast, hset⟩ := Option.bind_eq_some_iff.mp hresult
          obtain ⟨place, hplace, rfl⟩ := Option.map_eq_some_iff.mp hset
          rw [setBit?, Nat.add_div_right j (by decide), Nat.add_mod_right, hplace,
            List.getElem?_cons_succ, hlast]
          rfl
        · rw [unpack_cons, unpack_cons, hbits, List.set_append_right _ _ (Nat.le_add_left 8 j)]
          rfl

/-- Writing onto clear bits leaves the bits that were written, and all others as they
were. -/
theorem exists_writeBits? {buffer : Bytes} {front bits back : List Bool}
    (h : unpack buffer = front ++ (List.replicate bits.length false ++ back)) :
    ∃ result, writeBits? buffer front.length bits = some result ∧
      unpack result = front ++ (bits ++ back) := by
  induction bits generalizing buffer front with
  | nil => exact ⟨buffer, rfl, h⟩
  | cons bit rest ih =>
      rw [List.length_cons, List.replicate_succ, List.cons_append] at h
      have hstart : front.length < 8 * buffer.length := by
        have hlength := congrArg List.length h
        rw [length_unpack, List.length_append, List.length_cons] at hlength
        omega
      -- one bit is written behind the others
      obtain ⟨next, hnext, hbits⟩ : ∃ next, writeBit? buffer front.length bit = some next ∧
          unpack next = (front ++ [bit]) ++ (List.replicate rest.length false ++ back) := by
        cases bit with
        | false => exact ⟨buffer, rfl, by rw [h, List.append_assoc]; rfl⟩
        | true =>
            obtain ⟨next, hnext, hbits⟩ := exists_setBit? hstart
            refine ⟨next, hnext, ?_⟩
            rw [hbits, h, List.set_append_right _ _ (Nat.le_refl _), Nat.sub_self,
              List.append_assoc]
            rfl
      obtain ⟨result, hresult, hall⟩ := ih hbits
      refine ⟨result, ?_, ?_⟩
      · rw [writeBits?, hnext]
        rw [List.length_append] at hresult
        exact hresult
      · rw [hall, List.append_assoc]
        rfl

/-! ## Whole sequences -/

/-- Copies bytes into a buffer, if they fit from a position on. -/
def copyAt? (buffer : Bytes) (start : Nat) (bytes : Bytes) : Option Bytes :=
  if start + bytes.length ≤ buffer.length then
    some (buffer.take start ++ bytes ++ buffer.drop (start + bytes.length))
  else none

/-- Clear bytes for a number of bits. -/
def clearBytes (len : Nat) : Bytes := List.replicate (byteCount len) 0

theorem copyAt?_clearBytes {bytes : Bytes} {len : Nat} (h : bytes.length ≤ byteCount len) :
    copyAt? (clearBytes len) 0 bytes =
      some (bytes ++ List.replicate (byteCount len - bytes.length) 0) := by
  rw [copyAt?, clearBytes, if_pos (by rw [List.length_replicate]; omega), List.take_zero,
    List.nil_append, List.drop_replicate, Nat.zero_add]

theorem copyAt?_append {front back bytes : Bytes} (h : back.length = bytes.length) :
    copyAt? (front ++ back) front.length bytes = some (front ++ bytes) := by
  rw [copyAt?, if_pos (Nat.le_of_eq (by rw [List.length_append, h])), List.take_left, ← h,
    ← List.length_append, List.drop_length, List.append_nil]

namespace BitSeq

/-- The bits of a sequence, read one by one. -/
def toList? (b : BitSeq) : Option (List Bool) := readBits? b.bytes 0 b.len

/-- The sequence of the given bits, written one by one. -/
def ofList? (bits : List Bool) : Option BitSeq :=
  (writeBits? (clearBytes bits.length) 0 bits).map fun bytes => ⟨bits.length, bytes⟩

/-- The first bits of some data.  The bits behind them in their last byte are cleared. -/
def ofData? (data : Bytes) (len : Nat) : Option BitSeq :=
  let filled := data.take (byteCount len) ++ List.replicate (byteCount len - data.length) 0
  if len % 8 = 0 then some ⟨len, filled⟩
  else filled[byteCount len - 1]?.map fun last =>
    ⟨len, filled.set (byteCount len - 1) (last &&& highMask (len % 8))⟩

/-- The number denoted by the first 64 bits, read one by one. -/
def decode? (b : BitSeq) : Option Nat := (readBits? b.bytes 0 (min b.len 64)).map natOf

/-- The shortest sequence that denotes a number, written bit by bit. -/
def encode? (x : Nat) : Option BitSeq := ofList? ((List.range (x.log2 + 1)).map x.testBit)

/-- The bits of `a` followed by those of `b`, in a buffer for both. -/
def append? (a b : BitSeq) : Option BitSeq := do
  let buffer ← copyAt? (clearBytes (a.len + b.len)) 0 a.bytes
  if a.len % 8 = 0 then
    (copyAt? buffer (a.len / 8) b.bytes).map fun bytes => ⟨a.len + b.len, bytes⟩
  else
    let bits ← b.toList?
    (writeBits? buffer a.len bits).map fun bytes => ⟨a.len + b.len, bytes⟩

/-- The bits of `a` followed by those of `b`, which are written one by one wherever in a
byte `a` ends. -/
def appendBits? (a b : BitSeq) : Option BitSeq := do
  let buffer ← copyAt? (clearBytes (a.len + b.len)) 0 a.bytes
  let bits ← b.toList?
  (writeBits? buffer a.len bits).map fun bytes => ⟨a.len + b.len, bytes⟩

/-- The bits from `start` up to `stop`, which take whole bytes or are read one by one. -/
def slice? (b : BitSeq) (start stop : Nat) : Option BitSeq :=
  if start % 8 = 0 then
    if start / 8 ≤ b.bytes.length then ofData? (b.bytes.drop (start / 8)) (stop - start) else none
  else (readBits? b.bytes start (stop - start)).bind ofList?

/-- The bits from `start` up to `stop`, which are read one by one wherever in a byte they
start. -/
def sliceBits? (b : BitSeq) (start stop : Nat) : Option BitSeq :=
  (readBits? b.bytes start (stop - start)).bind ofList?

/-- The bytes are those of the other string from a position on, compared one by one. -/
def agreeFrom? (other : Bytes) (i : Nat) : Bytes → Option Bool
  | [] => some true
  | byte :: rest => do
    let otherByte ← other[i]?
    if byte = otherByte then agreeFrom? other (i + 1) rest else some false

/-- The sequences have the same length and the same bytes, compared one by one. -/
def equal? (a b : BitSeq) : Option Bool :=
  if a.len = b.len then agreeFrom? b.bytes 0 a.bytes else some false

theorem agreeFrom?_eq {bytes other : Bytes} {i : Nat} (h : i + bytes.length = other.length) :
    agreeFrom? other i bytes = some (decide (bytes = other.drop i)) := by
  induction bytes generalizing i with
  | nil =>
      have hnone : other.drop i = [] := List.drop_eq_nil_of_le (Nat.le_of_eq h.symm)
      rw [agreeFrom?, hnone, decide_eq_true rfl]
  | cons byte rest ih =>
      rw [List.length_cons] at h
      have hi : i < other.length := by omega
      rw [agreeFrom?, List.getElem?_eq_getElem hi, List.drop_eq_getElem_cons hi]
      show (if byte = other[i] then _ else _) = _
      by_cases hsame : byte = other[i]
      · rw [if_pos hsame, ih (by omega), ← hsame]
        simp only [List.cons.injEq, true_and]
      · rw [if_neg hsame, decide_eq_false (fun heq => hsame (List.cons.inj heq).1)]

theorem ofList?_eq (bits : List Bool) : ofList? bits = some (ofList bits) := by
  have hclear : unpack (clearBytes bits.length) = [] ++ (List.replicate bits.length false ++
      List.replicate (8 * byteCount bits.length - bits.length) false) := by
    rw [clearBytes, unpack_replicate_zero, List.nil_append, List.replicate_append_replicate]
    congr 1
    unfold byteCount
    omega
  obtain ⟨bytes, hbytes, hbits⟩ := exists_writeBits? hclear
  have hholds : Holds bytes bits := ⟨_, by unfold byteCount; omega, hbits⟩
  rw [ofList?, show (0 : Nat) = ([] : List Bool).length from rfl, hbytes, Option.map_some, ofList,
    hholds.eq_pack]

theorem encode?_eq (x : Nat) : encode? x = some (encode x) := ofList?_eq _

theorem trimLast_eq_set (used : Nat) {bytes : Bytes} {last : UInt8}
    (h : bytes[bytes.length - 1]? = some last) :
    trimLast used bytes = bytes.set (bytes.length - 1) (last &&& highMask used) := by
  fun_induction trimLast used bytes with
  | case1 => cases h
  | case2 byte =>
      cases h
      rfl
  | case3 byte rest hrest ih =>
      obtain ⟨second, more, rfl⟩ := List.exists_cons_of_ne_nil (fun hnil => hrest hnil)
      exact congrArg (List.cons byte) (ih h)

theorem ofData?_eq (data : Bytes) (len : Nat) : ofData? data len = some (ofData data len) := by
  have hlength : (data.take (byteCount len) ++
      List.replicate (byteCount len - data.length) (0 : UInt8)).length = byteCount len := by
    rw [List.length_append, List.length_take, List.length_replicate]
    omega
  unfold ofData? ofData
  simp only
  generalize data.take (byteCount len) ++ List.replicate (byteCount len - data.length) 0 = filled
    at hlength ⊢
  split
  · rfl
  · have hlast : byteCount len - 1 < filled.length := by
      rw [hlength]
      unfold byteCount
      omega
    rw [List.getElem?_eq_getElem hlast, Option.map_some,
      trimLast_eq_set _ (by rw [hlength]; exact List.getElem?_eq_getElem hlast), hlength]

namespace Canonical

variable {a b : BitSeq}

theorem len_le (h : b.Canonical) : b.len ≤ 8 * b.bytes.length := by
  rw [h.1]
  unfold byteCount
  omega

theorem toList?_eq (h : b.Canonical) : b.toList? = some b.toList := by
  rw [toList?, readBits?_eq (by have := h.len_le; omega)]
  rfl

theorem decode?_eq (h : b.Canonical) : b.decode? = some b.decode := by
  have hread : min b.len 64 ≤ 8 * b.bytes.length := by
    have := h.len_le
    omega
  rw [decode?, readBits?_eq (by omega), decode, toList, List.take_take, Nat.min_comm]
  rfl

/-- There is room for the bytes of both sequences, and no more than that. -/
theorem byteCount_add (ha : a.Canonical) (hb : b.Canonical) (haligned : a.len % 8 = 0) :
    a.bytes.length = a.len / 8 ∧
      byteCount (a.len + b.len) - a.bytes.length = b.bytes.length := by
  rw [ha.1, hb.1]
  unfold byteCount
  omega

/-- There is room for the bits of both sequences. -/
theorem length_bytes_le (ha : a.Canonical) (b : BitSeq) :
    a.bytes.length ≤ byteCount (a.len + b.len) := by
  rw [ha.1]
  unfold byteCount
  omega

theorem appendBits?_eq (ha : a.Canonical) (hb : b.Canonical) :
    a.appendBits? b = some (a ++ b) := by
  have hfits := ha.length_bytes_le b
  rw [appendBits?, copyAt?_clearBytes hfits, hb.toList?_eq]
  show (writeBits? _ a.len b.toList).map _ = _
  -- behind the bits of `a` the buffer is clear, for the bits of `b` and fewer than eight more
  obtain ⟨spare, hspare, haBits⟩ := ha.holds
  have hclear : unpack (a.bytes ++
        List.replicate (byteCount (a.len + b.len) - a.bytes.length) 0) =
      a.toList ++ (List.replicate b.toList.length false ++
        List.replicate (8 * byteCount (a.len + b.len) - (a.len + b.len)) false) := by
    have hlength := congrArg List.length haBits
    rw [length_unpack, List.length_append, List.length_replicate, ha.length_toList] at hlength
    rw [unpack_append, haBits, unpack_replicate_zero, List.append_assoc,
      List.replicate_append_replicate, List.replicate_append_replicate, hb.length_toList]
    congr 2
    unfold byteCount at hfits ⊢
    omega
  obtain ⟨bytes, hbytes, hbits⟩ := exists_writeBits? hclear
  rw [← List.append_assoc] at hbits
  have hholds : Holds bytes (a.toList ++ b.toList) := ⟨_, by unfold byteCount; omega, hbits⟩
  rw [ha.length_toList] at hbytes
  rw [hbytes, Option.map_some, append_eq_ofList ha hb]
  refine congrArg some (eq_ofList_of_holds hholds ?_)
  rw [List.length_append, ha.length_toList, hb.length_toList]

theorem append?_eq (ha : a.Canonical) (hb : b.Canonical) : a.append? b = some (a ++ b) := by
  by_cases haligned : a.len % 8 = 0
  · obtain ⟨hlength, hrest⟩ := ha.byteCount_add hb haligned
    rw [append?, copyAt?_clearBytes (ha.length_bytes_le b)]
    show (if a.len % 8 = 0 then _ else _) = some (BitSeq.append a b)
    rw [if_pos haligned, hrest, ← hlength, copyAt?_append (List.length_replicate ..),
      BitSeq.append, if_pos haligned]
    rfl
  · rw [append?]
    simp only [if_neg haligned]
    exact ha.appendBits?_eq hb

theorem sliceBits?_eq (h : b.Canonical) {start stop : Nat} (hstart : start ≤ stop)
    (hstop : stop ≤ b.len) : b.sliceBits? start stop = some (b.slice start stop) := by
  have hbits := h.len_le
  rw [sliceBits?, readBits?_eq (by omega), Option.bind_some, ofList?_eq,
    h.slice_eq_ofList hstart hstop, toList, List.drop_take, List.take_take]
  congr 3
  omega

theorem slice?_eq (h : b.Canonical) {start stop : Nat} (hstart : start ≤ stop)
    (hstop : stop ≤ b.len) : b.slice? start stop = some (b.slice start stop) := by
  have hbits := h.len_le
  by_cases haligned : start % 8 = 0
  · rw [slice?, if_pos haligned, if_pos (by omega), ofData?_eq, slice]
    simp only [if_pos haligned]
  · rw [slice?, if_neg haligned]
    exact h.sliceBits?_eq hstart hstop

/-- Canonical sequences of the same length have the same number of bytes, so the
comparison does not leave them. -/
theorem equal?_eq (ha : a.Canonical) (hb : b.Canonical) : a.equal? b = some (decide (a = b)) := by
  rw [equal?]
  by_cases hlen : a.len = b.len
  · have hbytes : 0 + a.bytes.length = b.bytes.length := by
      rw [Nat.zero_add, ha.1, hb.1, hlen]
    rw [if_pos hlen, agreeFrom?_eq hbytes, List.drop_zero]
    congr 2
    rw [eq_iff_iff]
    constructor
    · intro hsame
      cases a
      cases b
      exact congr (congrArg BitSeq.mk hlen) hsame
    · exact congrArg BitSeq.bytes
  · rw [if_neg hlen, decide_eq_false (fun heq => hlen (congrArg BitSeq.len heq))]

end Canonical

end BitSeq

end BitLang
