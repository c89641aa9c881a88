/-
# Keys identify bit sequences

A variable length integer shows where it ends, so it can be read from the front of any
byte string, and what it was followed by is left over.  A key is such an integer before
the packed bytes: it gives away both the length and the bytes of its sequence.
-/

import BitLang.BitSeq.Key
import Mathlib.Algebra.Group.Nat.Defs

namespace BitLang

namespace Varint

/-- The number at the front of a byte string, without a bound on its size, and the bytes
behind it. -/
def parse? : Bytes → Option (Nat × Bytes)
  | [] => none
  | byte :: rest =>
    if byte < 0x80 then some (byte.toNat, rest)
    else (parse? rest).map fun (number, data) => (byte.toNat - 0x80 + 0x80 * number, data)

/-- A number is read as it was written, whatever follows it. -/
theorem parse?_encode_append (x : Nat) (rest : Bytes) :
    parse? (encode x ++ rest) = some (x, rest) := by
  fun_induction encode x with
  | case1 x h =>
      have hbyte : (UInt8.ofNat x).toNat = x := by
        rw [UInt8.toNat_ofNat']
        omega
      have hlast : UInt8.ofNat x < 0x80 := by
        rw [UInt8.lt_iff_toNat_lt, hbyte]
        exact h
      rw [List.singleton_append, parse?, if_pos hlast, hbyte]
  | case2 x h ih =>
      have hbyte : (UInt8.ofNat (x % 0x80 + 0x80)).toNat = x % 0x80 + 0x80 := by
        rw [UInt8.toNat_ofNat']
        omega
      have hmore : ¬UInt8.ofNat (x % 0x80 + 0x80) < 0x80 := by
        rw [UInt8.lt_iff_toNat_lt, hbyte]
        exact Nat.not_lt.mpr (Nat.le_add_left ..)
      have hsum : x % 0x80 + 0x80 - 0x80 + 0x80 * (x / 0x80) = x := by omega
      rw [List.cons_append, parse?, if_neg hmore, ih, Option.map_some, hbyte]
      exact congrArg (fun number => some (number, rest)) hsum

/-- Two numbers followed by something are told apart by their bytes. -/
theorem encode_append_inj {x y : Nat} {first second : Bytes}
    (h : encode x ++ first = encode y ++ second) : x = y ∧ first = second := by
  have hread : some (x, first) = some (y, second) := by
    rw [← parse?_encode_append, h, parse?_encode_append]
  exact Prod.mk.inj (Option.some.inj hread)

/-- What is read with a bound on the number of groups is what stands there. -/
theorem parse?_of_decodeFrom {place value word : Nat} {bytes data : Bytes}
    (h : decodeFrom place value bytes = some (word, data)) :
    ∃ number, parse? bytes = some (number, data) ∧ word = value + number * 0x80 ^ place := by
  have hshift (n place : Nat) : n <<< (7 * place) = n * 0x80 ^ place := by
    rw [Nat.shiftLeft_eq, Nat.pow_mul]
  fun_induction decodeFrom place value bytes with
  | case1 | case2 | case3 => cases h
  | case4 place value byte rest _ hlast _ =>
      obtain ⟨rfl, rfl⟩ := Prod.mk.inj (Option.some.inj h)
      exact ⟨byte.toNat, by rw [parse?, if_pos hlast], by rw [hshift]⟩
  | case5 place value byte rest _ hmore ih =>
      obtain ⟨number, hnumber, hword⟩ := ih h
      refine ⟨byte.toNat - 0x80 + 0x80 * number, ?_, ?_⟩
      · rw [parse?, if_neg hmore, hnumber, Option.map_some]
      · rw [hword, hshift, Nat.add_mul, Nat.pow_succ', Nat.add_assoc]
        congr 2
        rw [Nat.mul_left_comm, Nat.mul_assoc]

theorem parse?_of_decode? {bytes data : Bytes} {word : Nat}
    (h : decode? bytes = some (word, data)) : parse? bytes = some (word, data) := by
  obtain ⟨number, hnumber, rfl⟩ := parse?_of_decodeFrom h
  simpa using hnumber

end Varint

namespace BitSeq

/-- Sequences with the same key are the same. -/
theorem key_inj {a b : BitSeq} : a.key = b.key ↔ a = b := by
  constructor
  · intro h
    obtain ⟨hlen, hbytes⟩ := Varint.encode_append_inj h
    cases a
    cases b
    exact congr (congrArg BitSeq.mk hlen) hbytes
  · exact congrArg key

end BitSeq

end BitLang
