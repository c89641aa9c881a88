/-
# Laws of byte strings

A number of fixed width can be read back as long as it fits, and texts, hexadecimal
digits and decimal numbers are told apart by their bytes.
-/

import BitLang.Text.Bytes
import Mathlib.Algebra.Group.Nat.Defs

namespace BitLang

/-! ## Numbers of fixed width -/

@[simp]
theorem length_bigEndian (width value : Nat) : (bigEndian width value).length = width := by
  induction width generalizing value with
  | zero => rfl
  | succ width ih => rw [bigEndian, List.length_append, ih, List.length_singleton]

theorem ofBigEndian_concat (bytes : Bytes) (byte : UInt8) :
    ofBigEndian (bytes ++ [byte]) = 256 * ofBigEndian bytes + byte.toNat := by
  simp only [ofBigEndian, List.foldl_append, List.foldl_cons, List.foldl_nil]

theorem ofBigEndian_bigEndian {width value : Nat} (h : value < 256 ^ width) :
    ofBigEndian (bigEndian width value) = value := by
  induction width generalizing value with
  | zero =>
      have hzero : value = 0 := by simpa using h
      rw [hzero]
      rfl
  | succ width ih =>
      have hhigh : value / 256 < 256 ^ width := by
        rw [Nat.pow_succ] at h
        omega
      rw [bigEndian, ofBigEndian_concat, ih hhigh, UInt8.toNat_ofNat']
      omega

theorem bigEndian_inj {width first second : Nat} (hfirst : first < 256 ^ width)
    (hsecond : second < 256 ^ width) (h : bigEndian width first = bigEndian width second) :
    first = second := by
  rw [← ofBigEndian_bigEndian hfirst, h, ofBigEndian_bigEndian hsecond]

theorem takeExactly?_append (front rest : Bytes) :
    takeExactly? front.length (front ++ rest) = some (front, rest) := by
  simp only [takeExactly?, List.take_left, List.drop_left, if_true]

/-! ## Texts -/

theorem utf8_injective {first second : String} (h : utf8 first = utf8 second) :
    first = second := by
  refine String.toByteArray_inj.mp (ByteArray.ext ?_)
  exact Array.toList_inj.mp h

theorem utf8_ofList (chars : List Char) :
    utf8 (String.ofList chars) = chars.flatMap String.utf8EncodeChar := by
  rw [utf8, String.toUTF8_eq_toByteArray, String.toByteArray_ofList, List.utf8Encode]
  exact List.toList_data_toByteArray

namespace Hex

theorem digit_injective {first second : Nat} (hfirst : first < 16) (hsecond : second < 16)
    (h : digit first = digit second) : first = second := by
  have hall : ∀ first second : Fin 16, digit first = digit second → first = second := by
    decide
  exact congrArg Fin.val (hall ⟨first, hfirst⟩ ⟨second, hsecond⟩ h)

theorem encode_injective {first second : Bytes} (h : encode first = encode second) :
    first = second := by
  unfold encode at h
  rw [String.ofList_inj] at h
  induction first generalizing second with
  | nil =>
      cases second with
      | nil => rfl
      | cons byte rest => cases h
  | cons byte rest ih =>
      cases second with
      | nil => cases h
      | cons byte' rest' =>
          simp only [List.flatMap_cons, List.cons_append, List.nil_append, List.cons.injEq] at h
          rcases h with ⟨hhigh, hlow, hrest⟩
          have hbyte := byte.toNat_lt
          have hbyte' := byte'.toNat_lt
          have hhigh := digit_injective (by omega) (by omega) hhigh
          have hlow := digit_injective (by omega) (by omega) hlow
          have hsame : byte = byte' := UInt8.toNat_inj.mp (by omega)
          rw [hsame, ih hrest]

/-- No hexadecimal digit is a slash. -/
theorem slash_not_mem_encode (bytes : Bytes) : '/' ∉ (encode bytes).toList := by
  have hdigit : ∀ value : Fin 16, digit value ≠ '/' := by decide
  rw [encode, String.toList_ofList]
  intro hmem
  obtain ⟨byte, -, hbyte⟩ := List.mem_flatMap.mp hmem
  have hlt := byte.toNat_lt
  rcases List.mem_cons.mp hbyte with hhigh | hrest
  · exact hdigit ⟨byte.toNat / 16, by omega⟩ hhigh.symm
  · exact hdigit ⟨byte.toNat % 16, by omega⟩ (List.mem_singleton.mp hrest).symm

end Hex

/-! ## Decimal numbers -/

theorem repr_nat_injective {n m : Nat} (h : n.repr = m.repr) : n = m := by
  have hdigits : Nat.toDigits 10 n = Nat.toDigits 10 m := by
    simpa only [Nat.repr_eq_ofList_toDigits, String.ofList_inj] using h
  have hback := congrArg (Nat.ofDigitChars 10 · 0) hdigits
  simpa only [Nat.ofDigitChars_ten_toDigits] using hback

/-- No number without a sign starts with the sign. -/
theorem repr_nat_ne_minus (n : Nat) (text : String) : n.repr ≠ "-" ++ text := by
  intro h
  have hmem : '-' ∈ Nat.toDigits 10 n := by
    rw [← String.toList_ofList (l := Nat.toDigits 10 n), ← Nat.repr_eq_ofList_toDigits, h,
      String.toList_append]
    exact List.mem_append_left _ (List.mem_singleton_self _)
  cases Nat.isDigit_of_mem_toDigits (by decide) (by decide) hmem

theorem repr_int_injective {a b : Int} (h : a.repr = b.repr) : a = b := by
  cases a with
  | ofNat n =>
      cases b with
      | ofNat m => rw [repr_nat_injective h]
      | negSucc m => exact absurd h (repr_nat_ne_minus n _)
  | negSucc n =>
      cases b with
      | ofNat m => exact absurd h.symm (repr_nat_ne_minus m _)
      | negSucc m =>
          have hsucc := repr_nat_injective ((String.append_right_inj "-").mp h)
          rw [Nat.succ.inj hsucc]

/-! ## Joined texts -/

/-- Two texts joined by a mark that the first does not hold can be told apart. -/
theorem append_mark_inj {α : Type} {mark : α} {first first' second second' : List α}
    (hfirst : mark ∉ first) (hfirst' : mark ∉ first')
    (h : first ++ mark :: second = first' ++ mark :: second') :
    first = first' ∧ second = second' := by
  induction first generalizing first' with
  | nil =>
      cases first' with
      | nil => exact ⟨rfl, (List.cons.inj h).2⟩
      | cons a rest => exact absurd (List.mem_cons.mpr (.inl (List.cons.inj h).1)) hfirst'
  | cons a rest ih =>
      cases first' with
      | nil => exact absurd (List.mem_cons.mpr (.inl (List.cons.inj h).1.symm)) hfirst
      | cons a' rest' =>
          obtain ⟨hhead, htail⟩ := List.cons.inj h
          obtain ⟨hrest, hsecond⟩ := ih (fun hmem => hfirst (List.mem_cons_of_mem a hmem))
            (fun hmem => hfirst' (List.mem_cons_of_mem a' hmem)) htail
          exact ⟨by rw [hhead, hrest], hsecond⟩

end BitLang
