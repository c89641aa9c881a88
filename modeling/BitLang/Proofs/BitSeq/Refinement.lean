/-
# Bit sequences are lists of bits

Whatever is made by building, joining and cutting bit sequences is packed canonically
and holds the bits that the same calls make of lists.  A packed sequence is thereby known
through its list alone: equality, keys and lists of bits tell the same sequences apart, and
it makes no difference whether whole bytes are moved or bits one by one.

The bits of data are given by the binary digits of its bytes, and not by the masks that
pick them out.
-/

import BitLang.Proofs.BitSeq.Indices
import BitLang.Proofs.BitSeq.Key
import Mathlib.Algebra.Ring.Parity
import Mathlib.Data.Nat.Size

namespace BitLang

/-! ## The bits of data and of numbers -/

/-- The bits of data: the binary digits of each byte, most significant first. -/
def bitsOfData (data : Bytes) : List Bool :=
  data.flatMap fun byte => [7, 6, 5, 4, 3, 2, 1, 0].map byte.toNat.testBit

theorem unpack_eq_bitsOfData (data : Bytes) : unpack data = bitsOfData data := by
  have hbyte : ∀ byte, byteBits byte = [7, 6, 5, 4, 3, 2, 1, 0].map byte.toNat.testBit :=
    forall_byte (by decide +kernel)
  rw [unpack, bitsOfData, funext hbyte]

/-- The binary digits of a number, least significant first; zero has one. -/
def binaryDigits (x : Nat) : List Bool := if x = 0 then [false] else x.bits

theorem map_testBit_of_two_le {x : Nat} (h : 2 ≤ x) :
    (List.range (x.log2 + 1)).map x.testBit =
      x.testBit 0 :: (List.range ((x / 2).log2 + 1)).map (x / 2).testBit := by
  have hlog : x.log2 = (x / 2).log2 + 1 := by
    rw [Nat.log2_def, if_pos h]
  have htail : x.testBit ∘ Nat.succ = (x / 2).testBit :=
    funext fun i => Nat.testBit_succ x i
  rw [hlog, List.range_succ_eq_map, List.map_cons, List.map_map, htail]

theorem map_testBit_eq_binaryDigits (x : Nat) :
    (List.range (x.log2 + 1)).map x.testBit = binaryDigits x := by
  induction x using Nat.strong_induction_on with
  | _ x ih =>
      by_cases hsmall : x < 2
      · have hx : x = 0 ∨ x = 1 := by omega
        rcases hx with rfl | rfl
        · rfl
        · simp [binaryDigits, Nat.log2_def]
      · rw [map_testBit_of_two_le (by omega), ih (x / 2) (by omega), binaryDigits, binaryDigits,
          if_neg (by omega), if_neg (by omega)]
        obtain ⟨n, rfl | rfl⟩ := Nat.even_or_odd' x
        · have hhalf : 2 * n / 2 = n := by omega
          rw [hhalf, Nat.bit0_bits n (by omega)]
          simp
        · have hhalf : (2 * n + 1) / 2 = n := by omega
          rw [hhalf, Nat.bit1_bits]
          simp

/-- The binary digits of a number denote it. -/
theorem natOf_map_testBit (x : Nat) :
    BitSeq.natOf ((List.range (x.log2 + 1)).map x.testBit) = x := by
  induction x using Nat.strong_induction_on with
  | _ x ih =>
      by_cases hsmall : x < 2
      · have hx : x = 0 ∨ x = 1 := by omega
        rcases hx with rfl | rfl
        · rfl
        · simp [BitSeq.natOf, Nat.log2_def]
      · have hhalf := ih (x / 2) (by omega)
        have hstep (bit : Bool) (rest : List Bool) :
            BitSeq.natOf (bit :: rest) = bit.toNat + 2 * BitSeq.natOf rest := rfl
        rw [map_testBit_of_two_le (by omega), hstep, hhalf, Nat.toNat_testBit]
        omega

/-- Taking so many elements, and others where there are too few, is taking them from a
list that was made long enough. -/
theorem takeD_eq_take_append {α : Type} (l : List α) (a : α) {n spare : Nat} (h : n ≤ spare) :
    l.takeD n a = (l ++ List.replicate spare a).take n := by
  induction n generalizing l with
  | zero => rfl
  | succ n ih =>
      cases l with
      | nil => rw [List.takeD_nil, List.nil_append, List.take_replicate, Nat.min_eq_left h]
      | cons first rest =>
          rw [List.takeD_succ, List.tail_cons, ih rest (Nat.le_of_succ_le h)]
          rfl

namespace BitSeq

/-! ## What each call makes -/

/-- The bits that the key of a sequence tells: as many of its data as the length says,
which is a signed word. -/
def bitsOfKey (key : Bytes) : List Bool :=
  match Varint.parse? key with
  | some (word, data) => (bitsOfData data).takeD (signed64 word).toNat false
  | none => []

/-- What building, joining and cutting bit sequences leaves, together with the bits that
the same calls make of lists. -/
inductive Made : BitSeq → List Bool → Prop
  | empty : Made .empty []
  | ofData (data : Bytes) (len : Int) :
      Made (.ofData data len.toNat) ((bitsOfData data).takeD len.toNat false)
  | ofBytes (bytes : Bytes) : Made (.ofBytes bytes) (bitsOfData bytes)
  | ofText (text : String) : Made (.ofBytes (utf8 text)) (bitsOfData (utf8 text))
  | ofDigits (text : Bytes) :
      Made (.ofDigits text) ((Rune.list text).map fun rune => rune.is '1')
  | encode (x : Nat) : Made (.encode x) (binaryDigits x)
  | ofKey {key : Bytes} {b : BitSeq} : ofKey? key = some b → Made b (bitsOfKey key)
  | append {a b : BitSeq} {as bs : List Bool} : Made a as → Made b bs → Made (a ++ b) (as ++ bs)
  | slice {b : BitSeq} {bits : List Bool} {start stop : Nat} : Made b bits → start ≤ stop →
      stop ≤ b.len → Made (b.slice start stop) ((bits.drop start).take (stop - start))

theorem ofData_eq_ofList_takeD (data : Bytes) (len : Nat) :
    ofData data len = ofList ((bitsOfData data).takeD len false) := by
  rw [ofData_eq_ofList, unpack_eq_bitsOfData, takeD_eq_take_append _ _ (Nat.le_refl len)]

theorem ofBytes_eq_ofList (bytes : Bytes) : ofBytes bytes = ofList (bitsOfData bytes) := by
  rw [ofBytes, ofData_eq_ofList, List.take_left' (length_unpack bytes), unpack_eq_bitsOfData]

theorem encode_eq_ofList (x : Nat) : encode x = ofList (binaryDigits x) :=
  congrArg ofList (map_testBit_eq_binaryDigits x)

/-- Numbers are told apart by the bits they are written in. -/
theorem encode_injective : Function.Injective encode := by
  intro x y h
  have hbits := congrArg (fun b => natOf b.toList) h
  simpa only [encode, toList_ofList, natOf_map_testBit] using hbits

theorem eq_ofList_of_ofKey? {key : Bytes} {b : BitSeq} (h : ofKey? key = some b) :
    b = ofList (bitsOfKey key) := by
  unfold ofKey? at h
  split at h
  · cases h
  · next word data hkey =>
      dsimp only at h
      split at h
      · rw [← Option.some.inj h, bitsOfKey, Varint.parse?_of_decode? hkey]
        exact ofData_eq_ofList_takeD data _
      · cases h

/-- However a sequence was made, it is packed from the bits that it should hold. -/
theorem Made.eq_ofList {b : BitSeq} {bits : List Bool} (h : Made b bits) : b = ofList bits := by
  induction h with
  | empty => rfl
  | ofData data len => exact ofData_eq_ofList_takeD data len.toNat
  | ofBytes bytes => exact ofBytes_eq_ofList bytes
  | ofText text => exact ofBytes_eq_ofList (utf8 text)
  | ofDigits text => rfl
  | encode x => exact encode_eq_ofList x
  | ofKey hkey => exact eq_ofList_of_ofKey? hkey
  | append _ _ iha ihb =>
      rw [iha, ihb, append_eq_ofList (canonical_ofList _) (canonical_ofList _), toList_ofList,
        toList_ofList]
  | slice _ hstart hstop ih =>
      rw [ih] at hstop ⊢
      rw [(canonical_ofList _).slice_eq_ofList hstart hstop, toList_ofList]

/-! ## Sequences and their bits -/

theorem Made.canonical {b : BitSeq} {bits : List Bool} (h : Made b bits) : b.Canonical := by
  rw [h.eq_ofList]
  exact canonical_ofList bits

theorem ofList_inj {as bs : List Bool} : ofList as = ofList bs ↔ as = bs := by
  constructor
  · intro h
    rw [← toList_ofList as, h, toList_ofList]
  · exact congrArg ofList

/-- The bit at a position is the one of the list, and clear behind the end. -/
theorem get_ofList (bits : List Bool) (i : Nat) : (ofList bits).get i = bits.getD i false := by
  obtain ⟨spare, -, hbits⟩ := holds_pack bits
  have hget : (ofList bits).get i = (bitAt? (pack bits) i).getD false := by
    have hbytes : (ofList bits).bytes = pack bits := rfl
    rw [get, bitAt?, hbytes]
    cases (pack bits)[i / 8]? with
    | none => rfl
    | some byte => exact List.getD_eq_getElem?_getD
  rw [hget, bitAt?_eq, hbits, List.getD_eq_getElem?_getD]
  by_cases hi : i < bits.length
  · rw [List.getElem?_append_left hi]
  · rw [List.getElem?_append_right (Nat.not_lt.mp hi), List.getElem?_replicate,
      List.getElem?_eq_none (Nat.not_lt.mp hi)]
    split <;> rfl

/-- Sequences that were made in any way are packed canonically and hold their bits.  They
are equal, and so are their keys, exactly if their bits are; joining and cutting them leaves
the same whether bytes are moved or bits one by one. -/
theorem Made.denotes_bits {a b : BitSeq} {as bs : List Bool} (ha : Made a as) (hb : Made b bs) :
    (a.Canonical ∧ a.len = as.length ∧ a.toList = as ∧ ∀ i, a.get i = as.getD i false) ∧
      ((a == b) = decide (as = bs) ∧ a.equal? b = some (decide (as = bs)) ∧
        (a.key = b.key ↔ as = bs)) ∧
      (a.append? b = some (a ++ b) ∧ a.appendBits? b = some (a ++ b)) ∧
      ∀ start stop, start ≤ stop → stop ≤ a.len →
        a.slice? start stop = some (a.slice start stop) ∧
          a.sliceBits? start stop = some (a.slice start stop) := by
  have heq : a = b ↔ as = bs := by
    rw [ha.eq_ofList, hb.eq_ofList, ofList_inj]
  refine ⟨⟨ha.canonical, ?_, ?_, ?_⟩, ⟨?_, ?_, key_inj.trans heq⟩,
    ⟨ha.canonical.append?_eq hb.canonical, ha.canonical.appendBits?_eq hb.canonical⟩, ?_⟩
  · rw [ha.eq_ofList]
    rfl
  · rw [ha.eq_ofList, toList_ofList]
  · rw [ha.eq_ofList]
    exact get_ofList as
  · rw [beq_eq_decide, decide_eq_decide]
    exact heq
  · rw [ha.canonical.equal?_eq hb.canonical]
    exact congrArg some (decide_eq_decide.mpr heq)
  · intro start stop hstart hstop
    exact ⟨ha.canonical.slice?_eq hstart hstop, ha.canonical.sliceBits?_eq hstart hstop⟩

/-- Three bits of data, joined with a byte and cut inside of both, have the bits and the key
of the digits `1101001`. -/
theorem window_denotes_bits :
    let window := (ofData [0xFF] 3 ++ ofBytes [0xA5]).slice 2 9
    let digits := ofDigits [0x31, 0x31, 0x30, 0x31, 0x30, 0x30, 0x31]
    window.toList = [true, true, false, true, false, false, true] ∧ window.key = digits.key ∧
      window.sliceBits? 0 5 = some (window.slice 0 5) := by
  intro window digits
  have hwindow : Made window [true, true, false, true, false, false, true] :=
    .slice (.append (.ofData [0xFF] 3) (.ofBytes [0xA5])) (by decide) (by decide)
  have hdigits : Made digits [true, true, false, true, false, false, true] := .ofDigits _
  obtain ⟨hbits, ⟨-, -, hkey⟩, -, hslice⟩ := Made.denotes_bits hwindow hdigits
  exact ⟨hbits.2.2.1, hkey.mpr rfl, (hslice 0 5 (by decide) (by decide)).2⟩

end BitSeq

end BitLang
