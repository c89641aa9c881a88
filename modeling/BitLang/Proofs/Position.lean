/-
# True positions

A scan counts bytes, lines and runes as it passes them.  What it counts is what the text
before an offset says: as many bytes, a line for every newline byte in it, and a column for
every rune behind the last of them.
-/

import BitLang.Position
import BitLang.Proofs.Text.Spelling

namespace BitLang

/-- The position of the byte at an offset, read off the text before it. -/
def Position.ofOffset (source : Bytes) (offset : Nat) : Position :=
  ⟨offset, 1 + (source.take offset).count 0x0A,
    1 + runeCount ((source.take offset).rtakeWhile fun byte => byte != 0x0A)⟩

/-! ## Newlines -/

namespace Rune

/-- A newline is one byte, and no other rune holds that byte. -/
theorem Proper.newline_cases {rune : Rune} (h : rune.Proper) :
    (rune.is '\n' = true ∧ rune.bytes = [0x0A]) ∨
      (rune.is '\n' = false ∧ 0x0A ∉ rune.bytes) := by
  cases h with
  | @ascii byte _ =>
      have his : (Rune.ascii byte).is '\n' = (byte == 0x0A) := by
        rw [Bool.eq_iff_iff, is, beq_iff_eq, beq_iff_eq, ← UInt8.toNat_inj]
        rfl
      rw [his]
      by_cases hbyte : byte = 0x0A
      · exact .inl ⟨beq_iff_eq.mpr hbyte, by rw [hbyte]; rfl⟩
      · exact .inr ⟨beq_false_of_ne hbyte, by simpa [Rune.ascii] using Ne.symm hbyte⟩
  | wide h =>
      refine .inr ⟨?_, fun hmem => absurd (h.bytes_ge _ hmem) (by decide)⟩
      have hne : rune.code ≠ '\n'.toNat := Nat.ne_of_gt (Nat.lt_of_lt_of_le (by decide) h.code_ge)
      simpa [is] using hne

/-- The bytes behind the last newline are those of the runes behind it. -/
theorem rtakeWhile_bytesOf {runes : List Rune} (h : ∀ rune ∈ runes, rune.Proper) :
    ((bytesOf runes).rtakeWhile fun byte => byte != 0x0A) =
      bytesOf (runes.rtakeWhile fun rune => !rune.is '\n') := by
  induction runes using List.reverseRecOn with
  | nil => rfl
  | append_singleton runes rune ih =>
      obtain ⟨hrunes, hrune⟩ := List.forall_mem_append.mp h
      rw [bytesOf_append, List.rtakeWhile_concat]
      rcases (hrune rune (by simp)).newline_cases with ⟨his, hbytes⟩ | ⟨his, hbytes⟩
      · simp [his, hbytes, bytesOf]
      · have hall : ∀ byte ∈ (bytesOf [rune]).reverse, (byte != 0x0A) = true := by
          intro byte hmem
          rw [bne_iff_ne]
          rintro rfl
          exact hbytes (by simpa [bytesOf] using hmem)
        rw [List.rtakeWhile, List.reverse_append, List.takeWhile_append_of_pos hall,
          List.reverse_append, List.reverse_reverse, ← List.rtakeWhile, ih hrunes]
        simp [his, bytesOf_append]

end Rune

/-! ## Counting -/

namespace Place

/-- The place behind runes, one after another. -/
def passAll (place : Place) (runes : List Rune) : Place := runes.foldl pass place

theorem passAll_cons (place : Place) (rune : Rune) (runes : List Rune) :
    place.passAll (rune :: runes) = (place.pass rune).passAll runes := rfl

theorem passAll_append (place : Place) (front back : List Rune) :
    place.passAll (front ++ back) = (place.passAll front).passAll back := List.foldl_append

theorem offset_pass (place : Place) (rune : Rune) :
    (place.pass rune).offset = place.offset + rune.bytes.length := by
  unfold pass
  split <;> rfl

theorem offset_passAll (place : Place) (runes : List Rune) :
    (place.passAll runes).offset = place.offset + (Rune.bytesOf runes).length := by
  induction runes generalizing place with
  | nil => rfl
  | cons rune runes ih =>
      rw [Rune.bytesOf_cons, List.length_append, ← Nat.add_assoc, ← offset_pass]
      exact ih (place.pass rune)

theorem offset_passAll_start (runes : List Rune) :
    (start.passAll runes).offset = (Rune.bytesOf runes).length :=
  (offset_passAll start runes).trans (Nat.zero_add _)

/-- A scan counts a line for every newline byte. -/
theorem line_passAll (place : Place) {runes : List Rune} (h : ∀ rune ∈ runes, rune.Proper) :
    (place.passAll runes).line = place.line + (Rune.bytesOf runes).count 0x0A := by
  induction runes generalizing place with
  | nil => rfl
  | cons rune rest ih =>
      rw [passAll_cons, ih _ fun rune hmem => h rune (List.mem_cons_of_mem _ hmem),
        Rune.bytesOf_cons, List.count_append, ← Nat.add_assoc]
      rcases (h rune List.mem_cons_self).newline_cases with ⟨his, hbytes⟩ | ⟨his, hbytes⟩
      · simp [pass, his, hbytes]
      · simp [pass, his, List.count_eq_zero.mpr hbytes]

/-- Without a newline, a scan stays on its line and counts a column for every rune. -/
theorem passAll_of_not_mem (place : Place) {runes : List Rune} (h : ∀ rune ∈ runes, rune.Proper)
    (hnewline : 0x0A ∉ Rune.bytesOf runes) :
    place.passAll runes = ⟨place.offset + (Rune.bytesOf runes).length, place.line,
      place.column + runes.length⟩ := by
  induction runes generalizing place with
  | nil => rfl
  | cons rune rest ih =>
      rw [Rune.bytesOf_cons, List.mem_append, not_or] at hnewline
      have his : rune.is '\n' = false := by
        rcases (h rune List.mem_cons_self).newline_cases with ⟨-, hbytes⟩ | ⟨his, -⟩
        · simp [hbytes] at hnewline
        · exact his
      rw [passAll_cons, ih _ (fun rune hmem => h rune (List.mem_cons_of_mem _ hmem)) hnewline.2,
        Rune.bytesOf_cons, List.length_append]
      simp [pass, his, Nat.add_assoc, Nat.add_comm 1]

theorem passAll_start {runes : List Rune} (h : ∀ rune ∈ runes, rune.Proper) :
    start.passAll runes =
      ⟨(Rune.bytesOf runes).length, 1 + (Rune.bytesOf runes).count 0x0A,
        (runes.rtakeWhile fun rune => !rune.is '\n').length⟩ := by
  induction runes using List.reverseRecOn with
  | nil => rfl
  | append_singleton runes rune ih =>
      obtain ⟨hrunes, hrune⟩ := List.forall_mem_append.mp h
      rw [passAll_append, ih hrunes, Rune.bytesOf_append, List.rtakeWhile_concat]
      simp only [passAll, List.foldl_cons, List.foldl_nil, pass]
      rcases (hrune rune (by simp)).newline_cases with ⟨his, hbytes⟩ | ⟨his, hbytes⟩
      · simp [his, hbytes, Rune.bytesOf, Nat.add_assoc]
      · simp [his, Rune.bytesOf, List.count_eq_zero.mpr hbytes]

/-- A scan that has passed the first runes of a text stands at the position that the text
before it says. -/
theorem ahead_passAll_start {source : Bytes} {passed more : List Rune}
    (h : Rune.list source = passed ++ more) :
    (start.passAll passed).ahead = .ofOffset source (start.passAll passed).offset := by
  have hproper : ∀ rune ∈ passed, rune.Proper := fun rune hmem =>
    Rune.proper_of_mem_list source rune (h ▸ List.mem_append_left more hmem)
  have htake : source.take (Rune.bytesOf passed).length = Rune.bytesOf passed := by
    rw [← Rune.bytesOf_list source, h, Rune.bytesOf_append, List.take_left]
  have hline : Rune.list (Rune.bytesOf (passed.rtakeWhile fun rune => !rune.is '\n')) =
      passed.rtakeWhile fun rune => !rune.is '\n' := by
    have hpassed : passed <:+: Rune.list source := h ▸ (List.prefix_append passed more).isInfix
    exact Rune.list_bytesOf ((List.rtakeWhile_suffix _ passed).isInfix.trans hpassed)
  rw [passAll_start hproper]
  simp only [ahead, Position.ofOffset, htake, Rune.rtakeWhile_bytesOf hproper, runeCount, hline,
    Nat.add_comm 1]

end Place

end BitLang
