/-
# Canonical packing

Bytes hold a list of bits if they unpack to these bits and fewer than eight clear ones
behind them.  There is exactly one such byte string for every list, so a bit sequence
is canonical precisely if it is made from its own bits, and every operation that is
known by the bits it leaves is known altogether.
-/

import BitLang.BitSeq.Integer
import Mathlib.Data.List.Basic

namespace BitLang

/-! ## Bytes and their bits -/

/-- A fact about all bytes needs to be looked at for 256 numbers only. -/
theorem forall_byte {P : UInt8 → Prop} (h : ∀ n : Fin 256, P (.ofFin n)) (byte : UInt8) :
    P byte := by
  simpa using h byte.toFin

theorem packByte_byteBits (byte : UInt8) :
    packByte (byte &&& 0x80 != 0) (byte &&& 0x40 != 0) (byte &&& 0x20 != 0) (byte &&& 0x10 != 0)
      (byte &&& 0x08 != 0) (byte &&& 0x04 != 0) (byte &&& 0x02 != 0) (byte &&& 0x01 != 0) =
        byte := by
  revert byte
  exact forall_byte (by decide +kernel)

theorem byteBits_packByte (a b c d e f g h : Bool) :
    byteBits (packByte a b c d e f g h) = [a, b, c, d, e, f, g, h] := by
  revert a b c d e f g h
  decide +kernel

/-- The places of a byte, most significant first. -/
def bitPlaces : List UInt8 := [0x80, 0x40, 0x20, 0x10, 0x08, 0x04, 0x02, 0x01]

theorem byteBits_eq_map (byte : UInt8) :
    byteBits byte = bitPlaces.map fun place => byte &&& place != 0 := rfl

theorem map_highMask_bitPlaces {used : Nat} (h : used < 8) :
    (bitPlaces.map fun place => highMask used &&& place) =
      bitPlaces.take used ++ List.replicate (8 - used) 0 := by
  have hall : ∀ used : Fin 8, (bitPlaces.map fun place => highMask used &&& place) =
      bitPlaces.take used ++ List.replicate (8 - used) 0 := by decide
  exact hall ⟨used, h⟩

/-- Masking a byte clears its bits from a place on. -/
theorem byteBits_and_highMask {used : Nat} (h : used < 8) (byte : UInt8) :
    byteBits (byte &&& highMask used) =
      (byteBits byte).take used ++ List.replicate (8 - used) false := by
  calc byteBits (byte &&& highMask used)
      = (bitPlaces.map fun place => highMask used &&& place).map fun place =>
          byte &&& place != 0 := by
        simp only [byteBits_eq_map, List.map_map, Function.comp_def, UInt8.and_assoc]
    _ = (byteBits byte).take used ++ List.replicate (8 - used) false := by
        rw [map_highMask_bitPlaces h, List.map_append, List.map_take, List.map_replicate,
          UInt8.and_zero]
        rfl

theorem unpack_cons (byte : UInt8) (rest : Bytes) :
    unpack (byte :: rest) = byteBits byte ++ unpack rest := rfl

theorem unpack_append (first second : Bytes) :
    unpack (first ++ second) = unpack first ++ unpack second := List.flatMap_append

theorem length_unpack (bytes : Bytes) : (unpack bytes).length = 8 * bytes.length := by
  induction bytes with
  | nil => rfl
  | cons byte rest ih =>
      rw [unpack_cons, List.length_append, ih, List.length_cons]
      show 8 + 8 * rest.length = _
      omega

/-- Packing all bits of some bytes gives the bytes back. -/
theorem pack_unpack (bytes : Bytes) : pack (unpack bytes) = bytes := by
  induction bytes with
  | nil => rfl
  | cons byte rest ih =>
      show packByte _ _ _ _ _ _ _ _ :: pack (unpack rest) = _
      rw [packByte_byteBits, ih]

theorem take_unpack (bytes : Bytes) (n : Nat) :
    (unpack bytes).take (8 * n) = unpack (bytes.take n) := by
  induction bytes generalizing n with
  | nil => simp [unpack]
  | cons byte rest ih =>
      cases n with
      | zero => rfl
      | succ n =>
          have htake : 8 * (n + 1) = (byteBits byte).length + 8 * n := by
            show _ = 8 + 8 * n
            omega
          rw [unpack_cons, htake, List.take_length_add_append, ih, List.take_succ_cons, unpack_cons]

theorem drop_unpack (bytes : Bytes) (n : Nat) :
    (unpack bytes).drop (8 * n) = unpack (bytes.drop n) := by
  have hparts := List.take_append_drop (8 * n) (unpack bytes)
  rw [take_unpack] at hparts
  refine List.append_cancel_left (hparts.trans ?_)
  rw [← unpack_append, List.take_append_drop]

theorem unpack_replicate_zero (count : Nat) :
    unpack (List.replicate count 0) = List.replicate (8 * count) false := by
  induction count with
  | zero => rfl
  | succ count ih =>
      rw [List.replicate_succ, unpack_cons, ih, Nat.mul_succ, Nat.add_comm,
        ← List.replicate_append_replicate]
      rfl

/-! ## Bytes that hold bits -/

/-- The bytes hold exactly these bits, and clear bits up to the end of the last byte. -/
def Holds (bytes : Bytes) (bits : List Bool) : Prop :=
  ∃ spare < 8, unpack bytes = bits ++ List.replicate spare false

theorem holds_pack : (bits : List Bool) → Holds (pack bits) bits
  | a :: b :: c :: d :: e :: f :: g :: h :: rest => by
      obtain ⟨spare, hspare, hrest⟩ := holds_pack rest
      refine ⟨spare, hspare, ?_⟩
      rw [pack, unpack_cons, byteBits_packByte, hrest]
      rfl
  | [] => ⟨0, by decide, rfl⟩
  | [a] => ⟨7, by decide, by simp [pack, unpack, byteBits_packByte]⟩
  | [a, b] => ⟨6, by decide, by simp [pack, unpack, byteBits_packByte]⟩
  | [a, b, c] => ⟨5, by decide, by simp [pack, unpack, byteBits_packByte]⟩
  | [a, b, c, d] => ⟨4, by decide, by simp [pack, unpack, byteBits_packByte]⟩
  | [a, b, c, d, e] => ⟨3, by decide, by simp [pack, unpack, byteBits_packByte]⟩
  | [a, b, c, d, e, f] => ⟨2, by decide, by simp [pack, unpack, byteBits_packByte]⟩
  | [a, b, c, d, e, f, g] => ⟨1, by decide, by simp [pack, unpack, byteBits_packByte]⟩

/-- Bytes are determined by the bits they hold. -/
theorem Holds.eq_pack {bytes : Bytes} {bits : List Bool} (h : Holds bytes bits) :
    bytes = pack bits := by
  rcases h with ⟨spare, hspare, hbytes⟩
  obtain ⟨spare', hspare', hpack⟩ := holds_pack bits
  -- both are filled up to a whole number of bytes by fewer than eight bits
  have hsame : spare = spare' := by
    have hlength := congrArg List.length hbytes
    have hlength' := congrArg List.length hpack
    simp only [length_unpack, List.length_append, List.length_replicate] at hlength hlength'
    omega
  rw [← pack_unpack bytes, hbytes, hsame, ← hpack, pack_unpack]

theorem Holds.length_eq {bytes : Bytes} {bits : List Bool} (h : Holds bytes bits) :
    bytes.length = byteCount bits.length := by
  rcases h with ⟨spare, hspare, hbytes⟩
  have hlength := congrArg List.length hbytes
  simp only [length_unpack, List.length_append, List.length_replicate] at hlength
  unfold byteCount
  omega

namespace BitSeq

/-! ## Canonical sequences -/

/-- A sequence whose bytes hold the right number of bits is made from these bits. -/
theorem eq_ofList_of_holds {b : BitSeq} {bits : List Bool} (h : Holds b.bytes bits)
    (hlen : b.len = bits.length) : b = ofList bits := by
  cases b
  exact congr (congrArg BitSeq.mk hlen) h.eq_pack

theorem toList_ofList (bits : List Bool) : (ofList bits).toList = bits := by
  obtain ⟨spare, _, hpack⟩ := holds_pack bits
  rw [toList, ofList, hpack, List.take_left]

theorem canonical_ofList (bits : List Bool) : (ofList bits).Canonical := by
  refine ⟨(holds_pack bits).length_eq, ?_⟩
  obtain ⟨spare, _, hpack⟩ := holds_pack bits
  intro bit hmem
  rw [ofList, hpack, List.drop_left] at hmem
  exact List.eq_of_mem_replicate hmem

theorem Canonical.length_toList {b : BitSeq} (h : b.Canonical) : b.toList.length = b.len := by
  have hbytes := h.1
  rw [toList, List.length_take, length_unpack]
  unfold byteCount at hbytes
  omega

theorem Canonical.holds {b : BitSeq} (h : b.Canonical) : Holds b.bytes b.toList := by
  have hbytes := h.1
  unfold byteCount at hbytes
  refine ⟨((unpack b.bytes).drop b.len).length, ?_, ?_⟩
  · rw [List.length_drop, length_unpack]
    omega
  · rw [← List.eq_replicate_of_mem h.2, toList, List.take_append_drop]

/-- A canonical sequence is made from its bits. -/
theorem Canonical.ofList_toList {b : BitSeq} (h : b.Canonical) : ofList b.toList = b :=
  (eq_ofList_of_holds h.holds h.length_toList.symm).symm

/-- Canonical sequences with the same bits are the same. -/
theorem Canonical.toList_inj {a b : BitSeq} (ha : a.Canonical) (hb : b.Canonical) :
    a.toList = b.toList ↔ a = b := by
  constructor
  · intro h
    rw [← ha.ofList_toList, h, hb.ofList_toList]
  · exact congrArg toList

theorem canonical_encode (x : Nat) : (encode x).Canonical := canonical_ofList _

theorem canonical_ofDigits (text : Bytes) : (ofDigits text).Canonical := canonical_ofList _

theorem unpack_trimLast {used : Nat} (hused : used < 8) {bytes : Bytes} (h : bytes ≠ []) :
    unpack (trimLast used bytes) =
      (unpack bytes).take (8 * (bytes.length - 1) + used) ++ List.replicate (8 - used) false := by
  fun_induction trimLast used bytes with
  | case1 => exact absurd rfl h
  | case2 last =>
      simp only [unpack, List.flatMap_cons, List.flatMap_nil, List.append_nil]
      simpa using byteBits_and_highMask hused last
  | case3 byte rest hlast ih =>
      have hrest : rest ≠ [] := by
        rintro rfl
        exact hlast rfl
      have hcount : 8 * ((byte :: rest).length - 1) + used =
          (byteBits byte).length + (8 * (rest.length - 1) + used) := by
        have := List.length_pos_iff.mpr hrest
        show 8 * (rest.length + 1 - 1) + used = 8 + _
        omega
      rw [unpack_cons, ih hrest, unpack_cons, hcount, List.take_length_add_append,
        List.append_assoc]

/-- Data filled up with clear bytes, or cut off, to the bytes that `len` bits take. -/
theorem take_unpack_filled (data : Bytes) (len : Nat) :
    (unpack (data.take (byteCount len) ++
        List.replicate (byteCount len - data.length) 0)).take len =
      (unpack data ++ List.replicate len false).take len := by
  have hlen : len ≤ 8 * byteCount len := by
    unfold byteCount
    omega
  rw [unpack_append, ← take_unpack, unpack_replicate_zero, List.take_append, List.take_append,
    List.take_take, List.take_replicate, List.take_replicate, List.length_take, length_unpack]
  congr 2 <;> omega

/-- The bits of data as far as they are wanted, and clear bits where there are too
few. -/
theorem ofData_eq_ofList (data : Bytes) (len : Nat) :
    ofData data len = ofList ((unpack data ++ List.replicate len false).take len) := by
  have hlength : len = ((unpack data ++ List.replicate len false).take len).length := by
    rw [List.length_take, List.length_append, List.length_replicate]
    omega
  refine eq_ofList_of_holds ?_ hlength
  rw [← take_unpack_filled]
  unfold ofData
  simp only
  generalize hfilled :
    data.take (byteCount len) ++ List.replicate (byteCount len - data.length) 0 = filled
  have hcount : filled.length = (len + 7) / 8 := by
    rw [← hfilled, List.length_append, List.length_take, List.length_replicate]
    unfold byteCount
    omega
  split
  · refine ⟨0, by decide, ?_⟩
    rw [List.take_of_length_le (by rw [length_unpack]; omega), List.replicate_zero,
      List.append_nil]
  · refine ⟨8 - len % 8, by omega, ?_⟩
    have hfilledNe : filled ≠ [] := by
      rintro rfl
      simp only [List.length_nil] at hcount
      omega
    rw [unpack_trimLast (by omega) hfilledNe, hcount]
    congr 2
    omega

theorem canonical_ofData (data : Bytes) (len : Nat) : (ofData data len).Canonical := by
  rw [ofData_eq_ofList]
  exact canonical_ofList _

theorem canonical_ofBytes (bytes : Bytes) : (ofBytes bytes).Canonical := canonical_ofData bytes _

/-- The bytes of a canonical sequence, read with its length, give the sequence back. -/
theorem Canonical.ofData_bytes {b : BitSeq} (h : b.Canonical) : ofData b.bytes b.len = b := by
  have hlen : b.len ≤ (unpack b.bytes).length := by
    rw [length_unpack, h.1]
    unfold byteCount
    omega
  rw [ofData_eq_ofList, List.take_append_of_le_length hlen]
  exact h.ofList_toList

theorem canonical_slice (b : BitSeq) (start stop : Nat) : (b.slice start stop).Canonical := by
  unfold slice
  split
  · exact canonical_ofData _ _
  · exact canonical_ofList _

/-- A window that lies inside of a canonical sequence holds the bits of that window,
whether or not it starts on a byte boundary. -/
theorem Canonical.slice_eq_ofList {b : BitSeq} (h : b.Canonical) {start stop : Nat}
    (hstart : start ≤ stop) (hstop : stop ≤ b.len) :
    b.slice start stop = ofList ((b.toList.drop start).take (stop - start)) := by
  have hbytes := h.1
  have hbits : (b.toList.drop start).take (stop - start) =
      ((unpack b.bytes).drop start).take (stop - start) := by
    rw [toList, List.drop_take, List.take_take]
    congr 1
    omega
  have hstarts : (unpack b.bytes).drop start =
      (unpack (b.bytes.drop (start / 8))).drop (start % 8) := by
    rw [← drop_unpack, List.drop_drop]
    congr 1
    omega
  unfold byteCount at hbytes
  rw [hbits, hstarts]
  unfold slice
  dsimp only
  split
  · next haligned =>
      have hfits : stop - start ≤ (unpack (b.bytes.drop (start / 8))).length := by
        rw [length_unpack, List.length_drop]
        omega
      rw [ofData_eq_ofList, haligned, List.drop_zero, List.take_append_of_le_length hfits]
  · congr 1
    -- one byte more than the window takes is enough, wherever in a byte it starts
    rw [← take_unpack, List.drop_take, List.take_take]
    congr 1
    unfold byteCount
    omega

theorem len_append (a b : BitSeq) : (a ++ b).len = a.len + b.len := by
  show (append a b).len = _
  unfold append
  split <;> rfl

/-- The bytes of two canonical sequences side by side hold the bits of both, whether
or not the first one fills whole bytes. -/
theorem holds_append {a b : BitSeq} (ha : a.Canonical) (hb : b.Canonical) :
    Holds (a ++ b).bytes (a.toList ++ b.toList) := by
  show Holds (append a b).bytes _
  unfold append
  split
  · obtain ⟨aSpare, haSpare, haBits⟩ := ha.holds
    obtain ⟨spare, hspare, hbBits⟩ := hb.holds
    have hnone : aSpare = 0 := by
      have hlength := congrArg List.length haBits
      rw [length_unpack, List.length_append, List.length_replicate, ha.length_toList] at hlength
      omega
    refine ⟨spare, hspare, ?_⟩
    rw [unpack_append, haBits, hbBits, hnone, List.replicate_zero, List.append_nil,
      List.append_assoc]
  · -- the bits of the last byte of `a` start the packing of the rest
    have haBits : a.toList = unpack (a.bytes.take (a.len / 8)) ++
        (unpack (a.bytes.drop (a.len / 8))).take (a.len % 8) := by
      rw [← take_unpack, ← drop_unpack, ← List.take_add, toList]
      congr 1
      omega
    obtain ⟨spare, hspare, hrest⟩ :=
      holds_pack ((unpack (a.bytes.drop (a.len / 8))).take (a.len % 8) ++ b.toList)
    refine ⟨spare, hspare, ?_⟩
    rw [unpack_append, hrest, haBits]
    simp only [List.append_assoc]

/-- Putting canonical sequences side by side appends their bits. -/
theorem append_eq_ofList {a b : BitSeq} (ha : a.Canonical) (hb : b.Canonical) :
    a ++ b = ofList (a.toList ++ b.toList) := by
  apply eq_ofList_of_holds (holds_append ha hb)
  rw [len_append, List.length_append, ha.length_toList, hb.length_toList]

theorem Canonical.append {a b : BitSeq} (ha : a.Canonical) (hb : b.Canonical) :
    (a ++ b).Canonical := by
  rw [append_eq_ofList ha hb]
  exact canonical_ofList _

end BitSeq

end BitLang
