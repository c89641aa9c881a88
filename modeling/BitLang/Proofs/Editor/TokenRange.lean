/-
# Token ranges

The range of a token is found by counting on from where the token starts, rune by rune of its
text.  The scan of the source has counted the same runes, so the end of the range is where the
scan stood behind the token (`stop_tokenRange`).  An offset is found from a location by counting
newlines and then the runes of one line, and that leads back to where the scan stood
(`offsetOf_ofPosition`).

So the ways of counting agree on every literal and every mark, whatever bytes it is made of: its
range leads from its offset to the offset behind its text.  The text of a fault is not what stands
in the source, so its range is another.
-/

import BitLang.Proofs.Editor.Lines
import BitLang.Proofs.Token.Tiling

namespace BitLang.Editor

open Scanner

/-! ## From locations to offsets -/

/-- Skipping all newlines of a front that ends with one leads behind the front. -/
theorem skipLines_append {front : Bytes} (h : front = [] ∨ front.getLast? = some 0x0A)
    (offset : Nat) (back : Bytes) :
    skipLines (front.count 0x0A) offset (front ++ back) = some (offset + front.length, back) := by
  induction front generalizing offset with
  | nil => simp [skipLines]
  | cons byte rest ih =>
      have hrest : rest = [] ∨ rest.getLast? = some 0x0A := by
        cases rest with
        | nil => exact .inl rfl
        | cons next rest => simpa using h
      have hskip := ih hrest (offset + 1)
      rw [Nat.add_assoc, Nat.add_comm 1] at hskip
      rw [List.cons_append, List.length_cons, ← hskip]
      by_cases hbyte : byte = 0x0A
      · rw [hbyte, List.count_cons_self, skipLines, if_pos rfl]
      · -- the newline that ends the front is still to come
        have hmem : 0x0A ∈ rest := by
          rcases hrest with rfl | hlast
          · simp [hbyte] at h
          · exact List.mem_of_getLast? hlast
        obtain ⟨lines, hlines⟩ := Nat.exists_eq_succ_of_ne_zero
          (Nat.ne_of_gt (List.count_pos_iff.mpr hmem))
        rw [List.count_cons_of_ne hbyte, hlines, skipLines, if_neg hbyte]

/-- The runes of a text up to the last newline, as bytes. -/
theorem bytesOf_rdropWhile {runes : List Rune} (h : ∀ rune ∈ runes, rune.Proper) :
    Rune.bytesOf (runes.rdropWhile fun rune => !rune.is '\n') = [] ∨
      (Rune.bytesOf (runes.rdropWhile fun rune => !rune.is '\n')).getLast? = some 0x0A := by
  induction runes using List.reverseRecOn with
  | nil => exact .inl rfl
  | append_singleton runes rune ih =>
      obtain ⟨hrunes, hrune⟩ := List.forall_mem_append.mp h
      rw [List.rdropWhile_concat]
      rcases (hrune rune (by simp)).newline_cases with ⟨his, hbytes⟩ | ⟨his, -⟩
      · refine .inr ?_
        simp [his, hbytes, Rune.bytesOf]
      · simpa [his] using ih hrunes

section Scan

variable {source : Bytes} {passed more : List Rune}

/-- The location of a scan says how many newlines it has passed, and how many runes behind the
last of them. -/
theorem ofPosition_ahead (h : Rune.list source = passed ++ more) :
    Location.ofPosition (Place.start.passAll passed).ahead =
      ⟨(Rune.bytesOf passed).count 0x0A % 0x100000000,
        (passed.rtakeWhile fun rune => !rune.is '\n').length % 0x100000000⟩ := by
  rw [Place.passAll_start (proper_of_list_eq h), Location.ofPosition, Place.ahead,
    if_neg (Nat.ne_of_gt (Nat.lt_add_right _ Nat.zero_lt_one)), Nat.add_comm 1, pred32_succ,
    pred32_succ]

/-- The line on which a scan stands has at least the runes that the scan has passed there. -/
theorem length_rtakeWhile_lt (h : Rune.list source = passed ++ more) {bound : Nat}
    (hrunes : ∀ line ∈ lines source, runeCount line < bound) :
    (passed.rtakeWhile fun rune => !rune.is '\n').length < bound := by
  have hline : (Rune.bytesOf passed).count 0x0A < (lines source).length := by
    rw [length_lines]
    exact Nat.lt_succ_of_le (count_passed_le h)
  have hcount := runeCount_line h
  rw [List.getD_eq_getElem?_getD, List.getElem?_eq_getElem hline, Option.getD_some] at hcount
  have := hrunes _ (List.getElem_mem hline)
  omega

/-- Runes that are no newline hold no newline byte. -/
theorem count_bytesOf_eq_zero {runes : List Rune} (hproper : ∀ rune ∈ runes, rune.Proper)
    (h : ∀ rune ∈ runes, (!rune.is '\n') = true) : (Rune.bytesOf runes).count 0x0A = 0 := by
  rw [List.count_eq_zero, Rune.bytesOf, List.mem_flatMap]
  rintro ⟨rune, hmem, hbyte⟩
  rcases (hproper rune hmem).newline_cases with ⟨his, -⟩ | ⟨-, hbytes⟩
  · simpa [his] using h rune hmem
  · exact hbytes hbyte

/-- Where a scan stands is found again from its line and its column, as long as both can be
counted in 32 bits. -/
theorem offsetOf_ofPosition (h : Rune.list source = passed ++ more)
    (hlines : (lines source).length < 0x100000000)
    (hrunes : ∀ line ∈ lines source, runeCount line < 0x100000000) :
    offsetOf source (.ofPosition (Place.start.passAll passed).ahead) =
      (Place.start.passAll passed).offset := by
  have hcount := count_passed_le h
  rw [length_lines] at hlines
  rw [ofPosition_ahead h, Nat.mod_eq_of_lt (by omega),
    Nat.mod_eq_of_lt (length_rtakeWhile_lt h hrunes), Place.offset_passAll_start]
  -- the runes passed, cut behind the last newline
  have hproper := proper_of_list_eq h
  have hcut := List.rdropWhile_append_rtakeWhile (p := fun rune : Rune => !rune.is '\n')
    (l := passed)
  have hfront := bytesOf_rdropWhile hproper
  have hback : ∀ rune ∈ passed.rtakeWhile (fun rune => !rune.is '\n'),
      (!rune.is '\n') = true := fun _ hmem =>
    List.mem_rtakeWhile_imp (p := fun rune : Rune => !rune.is '\n') hmem
  generalize (passed.rtakeWhile fun rune => !rune.is '\n') = back at hcut hback ⊢
  generalize (passed.rdropWhile fun rune => !rune.is '\n') = front at hcut hfront
  subst hcut
  have hsource : source = Rune.bytesOf front ++ Rune.bytesOf (back ++ more) := by
    rw [← Rune.bytesOf_append, ← List.append_assoc, ← h, Rune.bytesOf_list]
  have hnone : (Rune.bytesOf back).count 0x0A = 0 :=
    count_bytesOf_eq_zero (fun rune hmem => hproper rune (by simp [hmem])) hback
  have hrest : Rune.list (Rune.bytesOf (back ++ more)) = back ++ more :=
    Rune.list_bytesOf_back (h.trans (List.append_assoc _ _ _))
  have hskip := skipLines_append hfront 0 (Rune.bytesOf (back ++ more))
  rw [← hsource] at hskip
  rw [Rune.bytesOf_append, List.count_append, hnone, Nat.add_zero, offsetOf]
  simp only [hskip, hrest, List.take_left, List.takeWhile_eq_self_iff.mpr hback, Nat.zero_add,
    List.length_append]

end Scan

/-! ## Ranges -/

/-- Locations count on as a scan does. -/
theorem pass_ofPosition {place : BitLang.Place} (hline : 0 < place.line) (rune : Rune) :
    (Location.ofPosition place.ahead).pass rune = .ofPosition (place.pass rune).ahead := by
  have hsucc (n : Nat) : succ32 (pred32 (n + 1)) = pred32 (n + 2) := by
    rw [pred32_succ, pred32_succ, succ32, Nat.mod_add_mod]
  have hzero : pred32 1 = 0 := rfl
  obtain ⟨lines, hlines⟩ := Nat.exists_eq_succ_of_ne_zero (Nat.ne_of_gt hline)
  by_cases his : rune.is '\n' = true
  · simp [Location.ofPosition, Location.pass, Place.ahead, Place.pass, his, hlines, hsucc, hzero]
  · simp [Location.ofPosition, Location.pass, Place.ahead, Place.pass, his, hlines, hsucc]

theorem foldl_pass_ofPosition (runes : List Rune) {place : BitLang.Place} (hline : 0 < place.line) :
    runes.foldl Location.pass (.ofPosition place.ahead) =
      .ofPosition (place.passAll runes).ahead := by
  induction runes generalizing place with
  | nil => rfl
  | cons rune rest ih =>
      have hpass : 0 < (place.pass rune).line := by
        unfold Place.pass
        split
        · exact Nat.succ_pos _
        · exact hline
      rw [List.foldl_cons, pass_ofPosition hline, ih hpass, Place.passAll_cons]

section Token

variable {source : Bytes} {token : Token}

/-- The range of a literal or a mark goes from where the scan stood before the token to where it
stood behind it, which is as many bytes further as the text of the token has. -/
theorem exists_tokenRange_eq (hmem : token ∈ Token.scan source)
    (hend : token.lexeme ≠ .endOfInput) (hfault : token.lexeme ≠ .fault) :
    ∃ passed spelling rest, Rune.list source = passed ++ spelling ++ rest ∧
      token.text = Rune.bytesOf spelling ∧ token.pos = (Place.start.passAll passed).ahead ∧
      .ofOffset source token.stop.offset = (Place.start.passAll (passed ++ spelling)).ahead ∧
      tokenRange token = ⟨.ofPosition (Place.start.passAll passed).ahead,
        .ofPosition (Place.start.passAll (passed ++ spelling)).ahead⟩ := by
  obtain ⟨passed, spelling, rest, hlist, hspelled⟩ := Token.exists_isSpelled hmem hend
  have htext : token.text = Rune.bytesOf spelling := by
    rw [hspelled.text_eq, messageOf_eq_nil hfault, List.nil_append]
  have hrunes : Rune.list token.text = spelling := by
    rw [htext, Rune.list_bytesOf ⟨passed, rest, hlist.symm⟩]
  have hoffset : (Place.start.passAll (passed ++ spelling)).offset = token.stop.offset := by
    rw [Place.passAll_append, Place.offset_passAll, ← htext]
    exact congrArg (·.offset + token.text.length) hspelled.pos_eq.symm
  have hproper := proper_of_list_eq (hlist.trans (List.append_assoc _ _ _))
  have hline : 0 < (Place.start.passAll passed).line := by
    rw [Place.passAll_start hproper]
    exact Nat.lt_add_right _ Nat.zero_lt_one
  refine ⟨passed, spelling, rest, hlist, htext, hspelled.pos_eq, ?_, ?_⟩
  · rw [Place.ahead_passAll_start hlist, hoffset]
  · rw [tokenRange, hspelled.pos_eq, hrunes, foldl_pass_ofPosition spelling hline,
      ← Place.passAll_append]

/-- The range of a literal or a mark ends where the text before its end says. -/
theorem stop_tokenRange (hmem : token ∈ Token.scan source) (hend : token.lexeme ≠ .endOfInput)
    (hfault : token.lexeme ≠ .fault) :
    (tokenRange token).stop = .ofPosition (.ofOffset source token.stop.offset) := by
  obtain ⟨passed, spelling, rest, -, -, -, hstop, hrange⟩ := exists_tokenRange_eq hmem hend hfault
  rw [hrange, hstop]

/-- The start and the end of a literal or a mark are found again from its range, as long as lines
and the runes on them can be counted in 32 bits. -/
theorem offsetOf_tokenRange (hlines : (lines source).length < 0x100000000)
    (hrunes : ∀ line ∈ lines source, runeCount line < 0x100000000)
    (hmem : token ∈ Token.scan source) (hend : token.lexeme ≠ .endOfInput)
    (hfault : token.lexeme ≠ .fault) :
    offsetOf source (tokenRange token).start = token.pos.offset ∧
      offsetOf source (tokenRange token).stop = token.pos.offset + token.text.length := by
  obtain ⟨passed, spelling, rest, hlist, -, hpos, hstop, hrange⟩ :=
    exists_tokenRange_eq hmem hend hfault
  rw [hrange]
  constructor
  · rw [offsetOf_ofPosition (hlist.trans (List.append_assoc _ _ _)) hlines hrunes, hpos]
    rfl
  · rw [offsetOf_ofPosition hlist hlines hrunes]
    exact congrArg Position.offset hstop.symm

end Token

/-- A mark, and a word of a rune of two bytes, of the first byte of another and of a newline behind
a backslash. -/
def straddling : Bytes := [0x24, 0xC3, 0xA9, 0xC3, 0x5C, 0x0A]

/-- The word of `straddling`. -/
def straddlingWord : Token :=
  ⟨.literal (.ofBytes [0xC3, 0xA9, 0xC3, 0x0A]), [0xC3, 0xA9, 0xC3, 0x5C, 0x0A], ⟨1, 1, 2⟩⟩

/-- The word ends with the text, at the start of its second line. -/
theorem offsetOf_straddlingWord :
    tokenRange straddlingWord = ⟨⟨0, 1⟩, ⟨1, 0⟩⟩ ∧ offsetOf straddling ⟨0, 1⟩ = 1 ∧
      offsetOf straddling ⟨1, 0⟩ = 6 := by
  have hrange : tokenRange straddlingWord = ⟨⟨0, 1⟩, ⟨1, 0⟩⟩ := by decide
  have hmem : straddlingWord ∈ Token.scan straddling := by decide
  refine ⟨hrange, ?_⟩
  have h := offsetOf_tokenRange (by decide) (by decide) hmem (by decide) (by decide)
  rwa [hrange] at h

end BitLang.Editor
