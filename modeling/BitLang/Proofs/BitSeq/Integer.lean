/-
# Integers come back from their bits

A bit sequence denotes the sum of the powers of two at its set bits.  Reading takes the first 64
bits into account, and so every number of 64 bits comes back from the sequence that it is written
as.  In the other direction a sequence comes back from its number exactly if no shorter one
denotes the same.

Both directions are also given here the way they are carried out, in words: a bit of a number is
taken by shifting the number down to it, and a number is gathered by shifting each bit up to its
place.
-/

import BitLang.Proofs.BitSeq.Refinement
import Mathlib.Algebra.BigOperators.Group.Finset.Basic
import Mathlib.Algebra.BigOperators.Ring.Finset
import Mathlib.Data.List.GetD
import Mathlib.Data.Nat.Digits.Lemmas

namespace BitLang.BitSeq

/-! ## The number that bits denote -/

/-- The number that the first bits of a sequence denote, at most `count` of them and least
significant first. -/
def valueOfFirst (count : Nat) (b : BitSeq) : Nat :=
  ∑ i ∈ Finset.range (min b.len count), (b.get i).toNat * 2 ^ i

/-- The number that all the bits of a sequence denote, least significant first. -/
def valueOfAll (b : BitSeq) : Nat := ∑ i ∈ Finset.range b.len, (b.get i).toNat * 2 ^ i

theorem natOf_cons (bit : Bool) (rest : List Bool) :
    natOf (bit :: rest) = bit.toNat + 2 * natOf rest := rfl

theorem natOf_eq_sum {bits : List Bool} {n : Nat} (h : bits.length ≤ n) :
    natOf bits = ∑ i ∈ Finset.range n, (bits.getD i false).toNat * 2 ^ i := by
  induction bits generalizing n with
  | nil => simp [natOf]
  | cons bit rest ih =>
      obtain ⟨n, rfl⟩ := Nat.exists_eq_add_of_le' (Nat.le_trans (Nat.le_add_left 1 _) h)
      rw [natOf_cons, ih (Nat.le_of_succ_le_succ h), Finset.sum_range_succ', Finset.mul_sum]
      simp only [List.getD_cons_succ, List.getD_cons_zero, pow_zero, mul_one, pow_succ]
      rw [Nat.add_comm]
      congr 1
      exact Finset.sum_congr rfl fun i _ => by rw [Nat.mul_left_comm, Nat.mul_comm 2]

theorem get_eq_getD (b : BitSeq) (i : Nat) : b.get i = (unpack b.bytes).getD i false := by
  rw [List.getD_eq_getElem?_getD, ← bitAt?_eq, get, bitAt?]
  cases b.bytes[i / 8]? with
  | none => rfl
  | some byte => exact List.getD_eq_getElem?_getD

/-- The bits at the front of a sequence, read one by one. -/
theorem natOf_take (b : BitSeq) {n : Nat} (h : n ≤ b.len) :
    natOf (b.toList.take n) = ∑ i ∈ Finset.range n, (b.get i).toNat * 2 ^ i := by
  rw [natOf_eq_sum (List.length_take_le n b.toList)]
  refine Finset.sum_congr rfl fun i hi => ?_
  have hlt : i < n := Finset.mem_range.mp hi
  rw [get_eq_getD, toList, List.take_take, Nat.min_eq_left h, List.getD_eq_getElem?_getD,
    List.getElem?_take_of_lt hlt, List.getD_eq_getElem?_getD]

theorem decode_eq_valueOfFirst (b : BitSeq) : b.decode = b.valueOfFirst 64 := by
  have htake : b.toList.take 64 = b.toList.take (min b.len 64) := by
    rw [toList, List.take_take, List.take_take, Nat.min_comm b.len 64, Nat.min_assoc, Nat.min_self]
  rw [decode, htake, natOf_take b (Nat.min_le_left ..), valueOfFirst]

theorem valueOfAll_eq_natOf (b : BitSeq) : b.valueOfAll = natOf b.toList := by
  rw [valueOfAll, ← natOf_take b (Nat.le_refl _), toList, List.take_take, Nat.min_self]

theorem natOf_lt (bits : List Bool) : natOf bits < 2 ^ bits.length := by
  induction bits with
  | nil => exact Nat.one_pos
  | cons bit rest ih =>
      have hbit := bit.toNat_le
      rw [natOf_cons, List.length_cons, Nat.pow_succ]
      omega

/-- The bits that denote a number are its binary digits. -/
theorem testBit_natOf (bits : List Bool) (i : Nat) :
    (natOf bits).testBit i = bits.getD i false := by
  induction bits generalizing i with
  | nil => simp [natOf]
  | cons bit rest ih =>
      have hbit := bit.toNat_le
      rw [natOf_cons]
      cases i with
      | zero =>
          rw [Nat.testBit_zero, Nat.add_mul_mod_self_left, List.getD_cons_zero]
          cases bit <;> rfl
      | succ i =>
          have hhalf : (bit.toNat + 2 * natOf rest) / 2 = natOf rest := by omega
          rw [Nat.testBit_succ, hhalf, ih, List.getD_cons_succ]

/-! ## The sequence that a number is written as -/

theorem len_encode (x : Nat) : (encode x).len = x.log2 + 1 := by
  show ((List.range (x.log2 + 1)).map x.testBit).length = _
  rw [List.length_map, List.length_range]

theorem toList_encode (x : Nat) : (encode x).toList = (List.range (x.log2 + 1)).map x.testBit :=
  toList_ofList _

theorem len_encode_eq_max (x : Nat) : (encode x).len = max 1 (Nat.digits 2 x).length := by
  rw [len_encode]
  by_cases hx : x = 0
  · rw [hx]
    rfl
  · rw [Nat.length_digits 2 x (by decide) hx, Nat.log2_eq_log_two]
    omega

/-- Behind its last set bit a number has clear bits only, like the sequence that it is written
as. -/
theorem get_encode (x i : Nat) : (encode x).get i = x.testBit i := by
  rw [encode, get_ofList, List.getD_eq_getElem?_getD, List.getElem?_map]
  by_cases hi : i < x.log2 + 1
  · rw [List.getElem?_range hi]
    rfl
  · have hlt : x < 2 ^ i :=
      Nat.lt_of_lt_of_le Nat.lt_log2_self (Nat.pow_le_pow_right (by decide) (Nat.not_lt.mp hi))
    rw [List.getElem?_eq_none (by simpa using hi), Nat.testBit_lt_two_pow hlt]
    rfl

theorem toNat_get_encode (x i : Nat) :
    ((encode x).get i).toNat = (Nat.digits 2 x).getD i 0 := by
  rw [get_encode, Nat.toNat_testBit, Nat.getD_digits x i (Nat.le_refl 2)]

theorem log2_lt_of_lt {x : Nat} (hx : x < 2 ^ 64) : x.log2 < 64 := by
  by_cases hzero : x = 0
  · rw [hzero]
    decide
  · exact (Nat.log2_lt hzero).mpr hx

/-- A number of 64 bits is read as it was written. -/
theorem decode_encode {x : Nat} (hx : x < 2 ^ 64) : (encode x).decode = x := by
  have hlength : ((List.range (x.log2 + 1)).map x.testBit).length ≤ 64 := by
    rw [List.length_map, List.length_range]
    exact log2_lt_of_lt hx
  rw [decode, toList_encode, List.take_of_length_le hlength, natOf_map_testBit]

theorem decode_lt (b : BitSeq) : b.decode < 2 ^ 64 :=
  Nat.lt_of_lt_of_le (natOf_lt _)
    (Nat.pow_le_pow_right (by decide) (List.length_take_le 64 b.toList))

/-! ## Minimal sequences -/

/-- The sequence has a single bit, or has at most 64 of which the last is set. -/
def Minimal (b : BitSeq) : Prop :=
  b.len = 1 ∨ (2 ≤ b.len ∧ b.len ≤ 64) ∧ b.get (b.len - 1) = true

theorem minimal_encode {x : Nat} (hx : x < 2 ^ 64) : (encode x).Minimal := by
  have hlen := len_encode x
  have hlog := log2_lt_of_lt hx
  by_cases hsmall : x < 2
  · refine .inl ?_
    have hcases : x = 0 ∨ x = 1 := by omega
    rcases hcases with rfl | rfl <;> rfl
  · have htwo : 1 ≤ x.log2 := (Nat.le_log2 (by omega)).mpr (by omega)
    refine .inr ⟨by omega, ?_⟩
    rw [get_encode, hlen]
    exact Nat.testBit_log2 (by omega)

/-- As many bits of a number as a list has are the list, if it denotes the number. -/
theorem map_testBit_natOf (bits : List Bool) :
    (List.range bits.length).map (natOf bits).testBit = bits := by
  apply List.ext_getElem
  · rw [List.length_map, List.length_range]
  · intro i _ hi
    rw [List.getElem_map, List.getElem_range, testBit_natOf, List.getD_eq_getElem _ _ hi]

/-- A list that ends in a set bit has the length of the number that it denotes. -/
theorem log2_natOf {bits : List Bool} (hlast : bits.getD (bits.length - 1) false = true) :
    (natOf bits).log2 + 1 = bits.length := by
  have hset : (natOf bits).testBit (bits.length - 1) = true := by
    rw [testBit_natOf, hlast]
  have hlow := Nat.ge_two_pow_of_testBit hset
  have hne : natOf bits ≠ 0 := by
    have := Nat.two_pow_pos (bits.length - 1)
    omega
  have hle := (Nat.le_log2 hne).mpr hlow
  have hlt := (Nat.log2_lt hne).mpr (natOf_lt bits)
  omega

/-- A minimal sequence is the one that its number is written as. -/
theorem Canonical.encode_decode {b : BitSeq} (hb : b.Canonical) (hmin : b.Minimal) :
    encode b.decode = b := by
  have hlength := hb.length_toList
  have hwhole : b.toList.take 64 = b.toList := by
    refine List.take_of_length_le ?_
    rcases hmin with hone | ⟨hlen, -⟩ <;> omega
  have hlog : (natOf b.toList).log2 + 1 = b.toList.length := by
    rcases hmin with hone | ⟨-, hlast⟩
    · have hlt := natOf_lt b.toList
      have hcases : natOf b.toList = 0 ∨ natOf b.toList = 1 := by
        rw [hlength, hone] at hlt
        omega
      rcases hcases with h | h <;> rw [h, hlength, hone] <;> rfl
    · apply log2_natOf
      rw [hlength, ← get_ofList, hb.ofList_toList, hlast]
  rw [decode, hwhole, encode, hlog, map_testBit_natOf, hb.ofList_toList]

/-- A sequence comes back from its number exactly if it is minimal. -/
theorem Canonical.encode_decode_iff {b : BitSeq} (hb : b.Canonical) :
    encode b.decode = b ↔ b.Minimal := by
  constructor
  · intro h
    rw [← h]
    exact minimal_encode b.decode_lt
  · exact hb.encode_decode

/-! ## Words -/

/-- The sequence that a word is written as: each bit is found by shifting the word down to it,
and written to its position. -/
def ofWord? (word : UInt64) : Option BitSeq :=
  ofList? ((List.range (max 1 word.toNat.size)).map fun i =>
    (word >>> UInt64.ofNat i) &&& 1 == 1)

/-- Gathers bits onto a word, each shifted up to its place. -/
def gather (word : UInt64) (place : Nat) : List Bool → UInt64
  | [] => word
  | bit :: rest => gather (word ||| bit.toUInt64 <<< UInt64.ofNat place) (place + 1) rest

/-- The word that the first 64 bits denote, which are read at their positions. -/
def toWord? (b : BitSeq) : Option UInt64 :=
  (readBits? b.bytes 0 (min b.len 64)).map (gather 0 0)

/-- The lowest bit of a word that was shifted down to a place is the bit at that place. -/
theorem shiftRight_and_one_beq (word : UInt64) {i : Nat} (hi : i < 64) :
    ((word >>> UInt64.ofNat i) &&& 1 == 1) = word.toNat.testBit i := by
  have hplace : (UInt64.ofNat i).toNat % 64 = i := by
    rw [UInt64.toNat_ofNat']
    omega
  have hbit : ((word >>> UInt64.ofNat i) &&& 1).toNat = (word.toNat.testBit i).toNat := by
    rw [UInt64.toNat_and, UInt64.toNat_shiftRight, hplace, Nat.toNat_testBit,
      Nat.shiftRight_eq_div_pow]
    exact Nat.and_one_is_mod _
  rw [Bool.eq_iff_iff, beq_iff_eq, ← UInt64.toNat_inj, hbit]
  cases word.toNat.testBit i <;> decide

theorem max_size (x : Nat) : max 1 x.size = x.log2 + 1 := by
  by_cases hx : x = 0
  · rw [hx]
    rfl
  · have hlow : x.log2 < x.size := Nat.lt_size.mpr (Nat.log2_self_le hx)
    have hhigh : x.size ≤ x.log2 + 1 := Nat.size_le.mpr Nat.lt_log2_self
    omega

/-- Writing a word bit by bit gives the sequence of its number. -/
theorem ofWord?_eq (word : UInt64) : ofWord? word = some (encode word.toNat) := by
  have hbits : ((List.range (max 1 word.toNat.size)).map fun i =>
      (word >>> UInt64.ofNat i) &&& 1 == 1) =
        (List.range (word.toNat.log2 + 1)).map word.toNat.testBit := by
    rw [max_size]
    refine List.map_congr_left fun i hi => shiftRight_and_one_beq word ?_
    have := log2_lt_of_lt word.toNat_lt
    have := List.mem_range.mp hi
    omega
  rw [ofWord?, hbits, ofList?_eq]
  rfl

/-- A bit that is shifted up behind all bits of a word adds its power of two. -/
theorem toNat_or_shiftLeft {word : UInt64} {place : Nat} (hword : word.toNat < 2 ^ place)
    (hplace : place < 64) (bit : Bool) :
    (word ||| bit.toUInt64 <<< UInt64.ofNat place).toNat =
      word.toNat + 2 ^ place * bit.toNat := by
  have hshift : (UInt64.ofNat place).toNat % 64 = place := by
    rw [UInt64.toNat_ofNat']
    omega
  have hbit : bit.toUInt64.toNat = bit.toNat := by cases bit <;> rfl
  have hsmall : bit.toNat <<< place < 2 ^ 64 := by
    rw [Nat.shiftLeft_eq]
    calc bit.toNat * 2 ^ place ≤ 1 * 2 ^ place := Nat.mul_le_mul_right _ bit.toNat_le
      _ < 2 ^ 64 := by rw [Nat.one_mul]; exact Nat.pow_lt_pow_right (by decide) hplace
  rw [UInt64.toNat_or, UInt64.toNat_shiftLeft, hshift, hbit, Nat.mod_eq_of_lt hsmall,
    Nat.shiftLeft_eq, Nat.mul_comm, Nat.or_comm, ← Nat.two_pow_add_eq_or_of_lt hword, Nat.add_comm]

/-- Bits gathered behind those that a word holds already add their number, moved up to there. -/
theorem toNat_gather {word : UInt64} {place : Nat} {bits : List Bool}
    (hword : word.toNat < 2 ^ place) (hplace : place + bits.length ≤ 64) :
    (gather word place bits).toNat = word.toNat + 2 ^ place * natOf bits := by
  induction bits generalizing word place with
  | nil => rfl
  | cons bit rest ih =>
      rw [List.length_cons] at hplace
      have hnext := toNat_or_shiftLeft hword (by omega) bit
      have hbound : (word ||| bit.toUInt64 <<< UInt64.ofNat place).toNat < 2 ^ (place + 1) := by
        have hle : 2 ^ place * bit.toNat ≤ 2 ^ place * 1 := Nat.mul_le_mul_left _ bit.toNat_le
        rw [hnext, Nat.pow_succ]
        omega
      rw [gather, ih hbound (by omega), hnext, natOf_cons, Nat.mul_add, Nat.pow_succ,
        Nat.mul_assoc, Nat.add_assoc]

/-- Gathering the bits of a sequence in a word gives its number. -/
theorem Canonical.toWord?_eq {b : BitSeq} (hb : b.Canonical) :
    b.toWord? = some (UInt64.ofNat b.decode) := by
  obtain ⟨bits, hread, hdecode⟩ := Option.map_eq_some_iff.mp hb.decode?_eq
  have hlength : bits.length ≤ 64 := by
    have hspan : min b.len 64 ≤ 8 * b.bytes.length := by
      have := hb.len_le
      omega
    rw [readBits?_eq (by omega)] at hread
    rw [← Option.some.inj hread, List.length_take]
    omega
  have hgather : (gather 0 0 bits).toNat = b.decode := by
    rw [toNat_gather (by decide) (by omega), ← hdecode, UInt64.toNat_zero, Nat.zero_add, pow_zero,
      Nat.one_mul]
  rw [toWord?, hread, Option.map_some, ← hgather, UInt64.ofNat_toNat]

/-- Every word comes back from the sequence it is written as, which holds its binary digits, and
exactly the minimal sequences come back from the number they denote.  Shifting words makes the
same of both. -/
theorem integers_come_back (x : UInt64) {b : BitSeq} (hb : b.Canonical) :
    ((encode x.toNat).decode = x.toNat ∧
      (encode x.toNat).len = max 1 (Nat.digits 2 x.toNat).length ∧
      (∀ i, ((encode x.toNat).get i).toNat = (Nat.digits 2 x.toNat).getD i 0) ∧
      ofWord? x = some (encode x.toNat)) ∧
    (encode b.decode = b ↔ b.Minimal) ∧
    b.decode = ∑ i ∈ Finset.range (min b.len 64), (b.get i).toNat * 2 ^ i ∧
    b.toWord? = some (UInt64.ofNat b.decode) := by
  refine ⟨⟨decode_encode x.toNat_lt, len_encode_eq_max _, toNat_get_encode _, ofWord?_eq x⟩,
    hb.encode_decode_iff, ?_, hb.toWord?_eq⟩
  rw [decode_eq_valueOfFirst, valueOfFirst]

/-- The highest power of two in a word comes back.  A sequence of 65 set bits does not: it denotes
the greatest word, for which 64 bits are enough. -/
theorem integers_come_back_atEdge :
    (ofList (List.replicate 65 true)).Canonical ∧
      ((encode 0x8000000000000000).decode = 0x8000000000000000 ∧
        ofWord? 0x8000000000000000 = some (encode 0x8000000000000000)) ∧
      encode (ofList (List.replicate 65 true)).decode ≠ ofList (List.replicate 65 true) := by
  have hcanonical := canonical_ofList (List.replicate 65 true)
  obtain ⟨⟨hback, -, -, hword⟩, hminimal, -⟩ := integers_come_back 0x8000000000000000 hcanonical
  refine ⟨hcanonical, ⟨hback, hword⟩, fun h => ?_⟩
  rcases hminimal.mp h with hone | ⟨⟨-, hlen⟩, -⟩
  · exact absurd hone (by decide)
  · exact absurd hlen (by decide)

end BitLang.BitSeq
