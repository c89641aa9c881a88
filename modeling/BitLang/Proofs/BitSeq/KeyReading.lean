/-
# Keys come back

The key of a bit sequence is read back as the sequence, and a key that is read at all, however it
was written, gives a canonical sequence which has a key of its own.  Lengths are signed 64-bit
words: one near the greatest word has no byte count, because the count wraps around, and one that
is negative asks for no bits.

Reading is given here once more with its buffer and its indices, in signed arithmetic.  It always
ends with a sequence or with the answer that there is none.
-/

import BitLang.Proofs.BitSeq.Indices
import BitLang.Proofs.BitSeq.Key
import Mathlib.Algebra.Group.Int.Defs

namespace BitLang

namespace Varint

/-- A number of 64 bits is read as it was written.  Ten groups are enough for it, and the tenth
holds a single bit. -/
theorem decodeFrom_encode_append {place x : Nat} (value : Nat) (rest : Bytes) (hplace : place ≤ 9)
    (hx : x < 2 ^ (64 - 7 * place)) :
    decodeFrom place value (encode x ++ rest) = some (value + x <<< (7 * place), rest) := by
  fun_induction encode x generalizing place value with
  | case1 x h =>
      have hbyte : (UInt8.ofNat x).toNat = x := by
        rw [UInt8.toNat_ofNat']
        omega
      have hlast : UInt8.ofNat x < 0x80 := by
        rw [UInt8.lt_iff_toNat_lt, hbyte]
        exact h
      have hfits : ¬(place = 9 ∧ 1 < UInt8.ofNat x) := by
        rintro ⟨rfl, hbit⟩
        rw [UInt8.lt_iff_toNat_lt, hbyte] at hbit
        change 1 < x at hbit
        omega
      rw [List.singleton_append, decodeFrom, if_neg (by omega), if_pos hlast, if_neg hfits, hbyte]
  | case2 x h ih =>
      have hbyte : (UInt8.ofNat (x % 0x80 + 0x80)).toNat = x % 0x80 + 0x80 := by
        rw [UInt8.toNat_ofNat']
        omega
      have hmore : ¬UInt8.ofNat (x % 0x80 + 0x80) < 0x80 := by
        rw [UInt8.lt_iff_toNat_lt, hbyte]
        exact Nat.not_lt.mpr (Nat.le_add_left ..)
      have hbelow : place ≤ 8 := by
        by_contra hnot
        obtain rfl : place = 9 := by omega
        omega
      have hrest : x / 0x80 < 2 ^ (64 - 7 * (place + 1)) := by
        have hexponent : 64 - 7 * place = 64 - 7 * (place + 1) + 7 := by omega
        rw [hexponent, Nat.pow_add] at hx
        exact Nat.div_lt_of_lt_mul (by rw [Nat.mul_comm]; exact hx)
      have hsum : x % 0x80 + 0x80 - 0x80 + x / 0x80 * 2 ^ 7 = x := by omega
      rw [List.cons_append, decodeFrom, if_neg (by omega), if_neg hmore, ih _ (by omega) hrest,
        hbyte, Nat.add_assoc, Nat.shiftLeft_eq, Nat.shiftLeft_eq, Nat.shiftLeft_eq, Nat.mul_succ,
        Nat.pow_add, Nat.mul_comm (2 ^ (7 * place)), ← Nat.mul_assoc, ← Nat.add_mul, hsum]

theorem decode?_encode_append {x : Nat} (hx : x < 2 ^ 64) (rest : Bytes) :
    decode? (encode x ++ rest) = some (x, rest) := by
  rw [decode?, decodeFrom_encode_append 0 rest (by decide) hx, Nat.zero_add, Nat.mul_zero,
    Nat.shiftLeft_zero]

/-- What is left behind a number is a part of what was there. -/
theorem length_of_decodeFrom {place value word : Nat} {bytes data : Bytes}
    (h : decodeFrom place value bytes = some (word, data)) : data.length ≤ bytes.length := by
  fun_induction decodeFrom place value bytes with
  | case1 | case2 | case3 => cases h
  | case4 place value byte rest _ _ _ =>
      obtain ⟨-, rfl⟩ := Prod.mk.inj (Option.some.inj h)
      exact Nat.le_succ _
  | case5 place value byte rest _ _ ih => exact Nat.le_succ_of_le (ih h)

end Varint

/-! ## Lengths in signed words -/

/-- The bytes of so many bits can be counted in signed 64-bit arithmetic. -/
theorem byteCount64_natCast {n : Nat} (h : n ≤ 2 ^ 63 - 8) : byteCount64 n = byteCount n := by
  have hword : Int.bmod ((n : Int) + 7) 0x10000000000000000 = ((n + 7 : Nat) : Int) := by
    rw [Int.bmod_eq_of_le] <;> omega
  rw [byteCount64, hword, byteCount]
  exact (Int.ofNat_tdiv (n + 7) 8).symm

/-- Near the greatest word the count of the bytes wraps around, and no data has that many. -/
theorem byteCount64_neg {len : Int} (hlen : 2 ^ 63 - 8 < len) (hword : len < 2 ^ 63) :
    byteCount64 len < 0 := by
  have hwraps : Int.bmod (len + 7) 0x10000000000000000 = -(0x10000000000000000 - 7 - len) := by
    rw [Int.bmod_def]
    omega
  rw [byteCount64, hwraps, Int.neg_tdiv, Int.tdiv_eq_ediv_of_nonneg (by omega)]
  omega

theorem signed64_lt (word : Nat) : signed64 word < 2 ^ 63 := by
  have hlt := @Int.bmod_lt word 0x10000000000000000 (by omega)
  unfold signed64
  omega

theorem signed64_of_lt {n : Nat} (h : n < 2 ^ 63) : signed64 n = n :=
  Int.bmod_eq_of_le (by omega) (by omega)

/-- A positive length that has a byte count is short enough for it. -/
theorem le_of_byteCount64_nonneg {word : Nat} (h : 0 ≤ byteCount64 (signed64 word)) :
    (signed64 word).toNat ≤ 2 ^ 63 - 8 := by
  by_contra hgreat
  have := byteCount64_neg (by omega) (signed64_lt word)
  omega

namespace BitSeq

/-! ## Reading in signed words -/

/-- Clear bytes, so many of them; there is no buffer with a negative number. -/
def buffer? (count : Int) : Option Bytes :=
  if count < 0 then none else some (List.replicate count.toNat 0)

/-- The first bits of some data, copied into a buffer.  The bits behind them in their last byte,
which is found by its index, are cleared. -/
def ofData64? (data : Bytes) (len : Int) : Option BitSeq :=
  if len ≤ 0 then some .empty
  else do
    let buffer ← buffer? (byteCount64 len)
    let filled := data.take buffer.length ++ buffer.drop data.length
    if len.tmod 8 = 0 then some ⟨len.toNat, filled⟩
    else
      let i := (byteCount64 len - 1).toNat
      let last ← filled[i]?
      some ⟨len.toNat, filled.set i (last &&& highMask (len.tmod 8).toNat)⟩

/-- The sequence with a key and whether there is one.  A key without a sequence goes with the
empty sequence. -/
def readKey? (key : Bytes) : Option (BitSeq × Bool) :=
  match Varint.decode? key with
  | none => some (.empty, false)
  | some (word, data) =>
    let len := signed64 word
    if (data.length : Int) = byteCount64 len then (ofData64? data len).map fun b => (b, true)
    else some (.empty, false)

theorem ofData_zero (data : Bytes) : ofData data 0 = .empty := by
  simp [ofData, byteCount, BitSeq.empty]

theorem ofData64?_eq {data : Bytes} {word : Nat}
    (h : (data.length : Int) = byteCount64 (signed64 word)) :
    ofData64? data (signed64 word) = some (ofData data (signed64 word).toNat) := by
  have hlen := le_of_byteCount64_nonneg (h ▸ Int.natCast_nonneg data.length)
  generalize signed64 word = len at h hlen ⊢
  unfold ofData64?
  split
  · next hnone =>
      rw [Int.toNat_of_nonpos hnone, ofData_zero]
  · next hsome =>
      obtain ⟨n, rfl⟩ := Int.eq_ofNat_of_zero_le (Int.le_of_lt (Int.not_le.mp hsome))
      rw [Int.toNat_natCast] at hlen ⊢
      have hmod : (n : Int).tmod 8 = ((n % 8 : Nat) : Int) := (Int.ofNat_tmod n 8).symm
      have hlast : ((byteCount n : Int) - 1).toNat = byteCount n - 1 := by omega
      rw [byteCount64_natCast hlen, buffer?, if_neg (by omega), Int.toNat_natCast, hmod, hlast,
        ← ofData?_eq, ofData?]
      simp only [Option.bind_eq_bind, Option.bind_some, List.length_replicate, List.drop_replicate,
        Int.natCast_eq_zero, Int.toNat_natCast, Option.map_eq_bind, Function.comp_def]

theorem ofKey?_of_decode? {key data : Bytes} {word : Nat}
    (h : Varint.decode? key = some (word, data)) :
    ofKey? key = if (data.length : Int) = byteCount64 (signed64 word)
      then some (ofData data (signed64 word).toNat) else none := by
  rw [ofKey?, h]

theorem eq_of_ofKey? {key : Bytes} {b : BitSeq} (h : ofKey? key = some b) :
    ∃ word data, Varint.decode? key = some (word, data) ∧
      (data.length : Int) = byteCount64 (signed64 word) ∧
      b = ofData data (signed64 word).toNat := by
  cases hkey : Varint.decode? key with
  | none =>
      rw [ofKey?, hkey] at h
      cases h
  | some found =>
      obtain ⟨word, data⟩ := found
      rw [ofKey?_of_decode? hkey] at h
      obtain ⟨hlength, hb⟩ := Option.ite_none_right_eq_some.mp h
      exact ⟨word, data, rfl, hlength, (Option.some.inj hb).symm⟩

/-- Reading a key in signed words never stops without an answer. -/
theorem readKey?_eq (key : Bytes) :
    readKey? key = some (match ofKey? key with
      | some b => (b, true)
      | none => (.empty, false)) := by
  cases hkey : Varint.decode? key with
  | none => rw [readKey?, ofKey?, hkey]
  | some found =>
      obtain ⟨word, data⟩ := found
      rw [ofKey?_of_decode? hkey, readKey?, hkey]
      by_cases hlength : (data.length : Int) = byteCount64 (signed64 word)
      · simp only [if_pos hlength, ofData64?_eq hlength, Option.map_some]
      · simp only [if_neg hlength]

/-! ## Round trips -/

theorem ofKey?_key {b : BitSeq} (hb : b.Canonical) (hlen : b.len ≤ 2 ^ 63 - 8) :
    ofKey? b.key = some b := by
  have hdecode := Varint.decode?_encode_append (x := b.len) (by omega) b.bytes
  have hsigned : signed64 b.len = b.len := signed64_of_lt (by omega)
  have hcount : (b.bytes.length : Int) = byteCount64 b.len := by
    rw [byteCount64_natCast hlen, hb.1]
  rw [ofKey?, key, hdecode]
  simp only [hsigned, if_pos hcount, Int.toNat_natCast, hb.ofData_bytes]

theorem len_ofData (data : Bytes) (len : Nat) : (ofData data len).len = len := rfl

/-- A sequence that was read from a key is short enough to have a key that is read, and takes no
more bytes than the key. -/
theorem bounds_of_ofKey? {key : Bytes} {b : BitSeq} (h : ofKey? key = some b) :
    b.len ≤ 2 ^ 63 - 8 ∧ b.bytes.length ≤ key.length := by
  obtain ⟨word, data, hdecode, hlength, rfl⟩ := eq_of_ofKey? h
  have hlen := le_of_byteCount64_nonneg (hlength ▸ Int.natCast_nonneg data.length)
  have hdata := Varint.length_of_decodeFrom hdecode
  generalize signed64 word = len at hlength hlen ⊢
  have hbytes := (canonical_ofData data len.toNat).1
  rw [len_ofData] at hbytes ⊢
  refine ⟨hlen, ?_⟩
  by_cases hsome : len ≤ 0
  · rw [hbytes, Int.toNat_of_nonpos hsome]
    exact Nat.zero_le _
  · obtain ⟨n, rfl⟩ := Int.eq_ofNat_of_zero_le (Int.le_of_lt (Int.not_le.mp hsome))
    rw [Int.toNat_natCast] at hlen hbytes
    rw [byteCount64_natCast hlen] at hlength
    rw [Int.toNat_natCast]
    omega

/-- A canonical sequence whose bytes can be counted comes back from its key, and no other has that
key.  Every byte string is read as a key with an answer: if there is a sequence it is canonical,
takes no more bytes than the key, and comes back from its own key; otherwise the answer is the
empty sequence. -/
theorem keys_come_back {b : BitSeq} (hb : b.Canonical) (hlen : b.len ≤ 2 ^ 63 - 8) :
    (ofKey? b.key = some b ∧ readKey? b.key = some (b, true)) ∧ (∀ a, a.key = b.key → a = b) ∧
      ∀ key, ∃ c found, readKey? key = some (c, found) ∧
        ofKey? key = (if found then some c else none) ∧ (found = false → c = .empty) ∧
        (found = true → c.Canonical ∧ c.bytes.length ≤ key.length ∧
          readKey? c.key = some (c, true)) := by
  have hread (c : BitSeq) (hc : ofKey? c.key = some c) : readKey? c.key = some (c, true) := by
    rw [readKey?_eq, hc]
  have hback := ofKey?_key hb hlen
  refine ⟨⟨hback, hread b hback⟩, fun a => key_inj.mp, fun key => ?_⟩
  have hanswer := readKey?_eq key
  cases h : ofKey? key with
  | none =>
      rw [h] at hanswer
      exact ⟨.empty, false, hanswer, rfl, fun _ => rfl, nofun⟩
  | some c =>
      rw [h] at hanswer
      have hcanonical : c.Canonical := by
        obtain ⟨word, data, -, -, rfl⟩ := eq_of_ofKey? h
        exact canonical_ofData _ _
      obtain ⟨hshort, hbytes⟩ := bounds_of_ofKey? h
      exact ⟨c, true, hanswer, rfl, nofun, fun _ =>
        ⟨hcanonical, hbytes, hread c (ofKey?_key hcanonical hshort)⟩⟩

/-- The key of 130 bits, whose length takes two groups, is read back, and there is an answer for
the key of the length minus one, which takes ten. -/
theorem keys_come_back_longPrefix :
    let b := ofList (List.replicate 130 true)
    (b.Canonical ∧ b.len ≤ 2 ^ 63 - 8) ∧ readKey? b.key = some (b, true) ∧
      ∃ c found, readKey? (List.replicate 9 0xFF ++ [0x01]) = some (c, found) ∧
        (found = true → readKey? c.key = some (c, true)) := by
  intro b
  have hcanonical : b.Canonical := canonical_ofList _
  have hlen : b.len ≤ 2 ^ 63 - 8 := by
    have hcount : b.len = 130 := List.length_replicate
    omega
  obtain ⟨⟨-, hback⟩, -, hall⟩ := keys_come_back hcanonical hlen
  obtain ⟨c, found, hread, -, -, hfound⟩ := hall (List.replicate 9 0xFF ++ [0x01])
  exact ⟨⟨hcanonical, hlen⟩, hback, c, found, hread, fun h => (hfound h).2.2⟩

-- a negative length asks for no bits
example : ofKey? (List.replicate 9 0xFF ++ [0x01]) = some .empty := by decide +kernel

end BitSeq

end BitLang
