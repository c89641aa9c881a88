/-
# Locations in a text

A location lies in a text if the text has its line, and on this line its character or, at most,
just the place behind the last one.

A scan that has passed some of the runes of a text stands at such a location, as long as the
lines can be counted in 32 bits.  The end of the text is given the position of the last rune on
its line.  Where the last line is empty there is no such rune.  The column is zero then, and one
less in 32 bits is more than any line has.
-/

import BitLang.Editor.Location
import BitLang.Proofs.Position

namespace BitLang

/-- The position that a scan gives to the end of a text. -/
def Position.ofEnd (text : Bytes) : Position := (Place.start.passAll (Rune.list text)).atEnd

namespace Editor

/-- The lines of a text, without their newlines. -/
def lines (text : Bytes) : List Bytes := text.splitOn 0x0A

/-- The text has the line of the location, with as many runes before it as the location says. -/
def Location.InText (text : Bytes) (location : Location) : Prop :=
  location.line ≤ text.count 0x0A ∧
    location.character ≤ runeCount ((lines text).getD location.line [])

instance (text : Bytes) (location : Location) : Decidable (location.InText text) :=
  inferInstanceAs (Decidable (_ ∧ _))

/-! ## Lines -/

theorem lines_cons (byte : UInt8) (rest : Bytes) :
    lines (byte :: rest) =
      if byte = 0x0A then [] :: lines rest else (lines rest).modifyHead (byte :: ·) := by
  rw [lines, List.splitOn_eq_splitOnP, List.splitOnP_cons_eq_if_modifyHead,
    ← List.splitOn_eq_splitOnP]
  simp only [beq_iff_eq]
  rfl

theorem lines_append_newline (before after : Bytes) :
    lines (before ++ 0x0A :: after) = lines before ++ lines after :=
  List.splitOn_append_cons_self before after

/-- There is a line before every newline, and one behind the last. -/
theorem length_lines (text : Bytes) : (lines text).length = text.count 0x0A + 1 := by
  induction text with
  | nil => rfl
  | cons byte rest ih =>
      rw [lines_cons]
      by_cases hbyte : byte = 0x0A
      · rw [if_pos hbyte, List.length_cons, ih, hbyte, List.count_cons_self]
      · rw [if_neg hbyte, List.length_modifyHead, ih, List.count_cons_of_ne hbyte]

/-- The first line goes up to the first newline. -/
theorem head?_lines (text : Bytes) :
    (lines text).head? = some (text.takeWhile fun byte => byte != 0x0A) := by
  induction text with
  | nil => rfl
  | cons byte rest ih =>
      rw [lines_cons]
      by_cases hbyte : byte = 0x0A
      · rw [if_pos hbyte, hbyte]
        rfl
      · rw [if_neg hbyte, List.head?_modifyHead, ih,
          List.takeWhile_cons_of_pos (by simpa using hbyte)]
        rfl

/-- The line on which a text is cut in two. -/
theorem getElem?_lines (before after : Bytes) :
    (lines (before ++ after))[before.count 0x0A]? =
      some ((before.rtakeWhile fun byte => byte != 0x0A) ++
        after.takeWhile fun byte => byte != 0x0A) := by
  induction before using List.reverseRecOn generalizing after with
  | nil => exact List.head?_eq_getElem?.symm.trans (head?_lines after)
  | append_singleton before byte ih =>
      rw [List.append_assoc, List.singleton_append, List.count_append, List.rtakeWhile_concat]
      by_cases hbyte : byte = 0x0A
      · have hlength := length_lines before
        rw [hbyte, lines_append_newline, List.count_singleton_self,
          List.getElem?_append_right (Nat.le_of_eq hlength), ← hlength]
        simpa [List.head?_eq_getElem?] using head?_lines after
      · rw [List.count_singleton, if_neg (by simpa using hbyte), Nat.add_zero, ih,
          List.takeWhile_cons_of_pos (by simpa using hbyte), if_pos (by simpa using hbyte)]
        simp

end Editor

/-- The bytes before the first newline are those of the runes before it. -/
theorem Rune.takeWhile_bytesOf {runes : List Rune} (h : ∀ rune ∈ runes, rune.Proper) :
    ((bytesOf runes).takeWhile fun byte => byte != 0x0A) =
      bytesOf (runes.takeWhile fun rune => !rune.is '\n') := by
  induction runes with
  | nil => rfl
  | cons rune runes ih =>
      obtain ⟨hrune, hrunes⟩ := List.forall_mem_cons.mp h
      rw [bytesOf_cons]
      rcases hrune.newline_cases with ⟨his, hbytes⟩ | ⟨his, hbytes⟩
      · simp [his, hbytes, bytesOf]
      · have hall : ∀ byte ∈ rune.bytes, (byte != 0x0A) = true := by
          intro byte hmem
          rw [bne_iff_ne]
          rintro rfl
          exact hbytes hmem
        rw [List.takeWhile_append_of_pos hall, ih hrunes,
          List.takeWhile_cons_of_pos (by simp [his]), bytesOf_cons]

namespace Editor

/-! ## Where a scan stands -/

section Scan

variable {source : Bytes} {passed more : List Rune}

theorem proper_of_list_eq (h : Rune.list source = passed ++ more) :
    ∀ rune ∈ passed, rune.Proper := fun rune hmem =>
  Rune.proper_of_mem_list source rune (h ▸ List.mem_append_left more hmem)

theorem count_passed_le (h : Rune.list source = passed ++ more) :
    (Rune.bytesOf passed).count 0x0A ≤ source.count 0x0A := by
  rw [← Rune.bytesOf_list source, h, Rune.bytesOf_append, List.count_append]
  exact Nat.le_add_right _ _

/-- The line on which a scan stands has the runes that it has passed there, and those that it
has not. -/
theorem runeCount_line (h : Rune.list source = passed ++ more) :
    runeCount ((lines source).getD ((Rune.bytesOf passed).count 0x0A) []) =
      (passed.rtakeWhile fun rune => !rune.is '\n').length +
        (more.takeWhile fun rune => !rune.is '\n').length := by
  have hproper : ∀ rune ∈ passed ++ more, rune.Proper :=
    h ▸ Rune.proper_of_mem_list source
  obtain ⟨hpassed, hmore⟩ := List.forall_mem_append.mp hproper
  have hsource : source = Rune.bytesOf passed ++ Rune.bytesOf more := by
    rw [← Rune.bytesOf_append, ← h, Rune.bytesOf_list]
  have hline : (lines source)[(Rune.bytesOf passed).count 0x0A]? =
      some (Rune.bytesOf ((passed.rtakeWhile fun rune => !rune.is '\n') ++
        more.takeWhile fun rune => !rune.is '\n')) := by
    rw [hsource, getElem?_lines, Rune.rtakeWhile_bytesOf hpassed, Rune.takeWhile_bytesOf hmore,
      Rune.bytesOf_append]
  have hinfix : (passed.rtakeWhile fun rune => !rune.is '\n') ++
      (more.takeWhile fun rune => !rune.is '\n') <:+: Rune.list source := by
    obtain ⟨front, hfront⟩ := List.rtakeWhile_suffix (fun rune => !rune.is '\n') passed
    obtain ⟨back, hback⟩ := List.takeWhile_prefix (fun rune => !rune.is '\n') (l := more)
    refine ⟨front, back, ?_⟩
    rw [h, ← List.append_assoc, hfront, List.append_assoc, hback]
  rw [List.getD_eq_getElem?_getD, hline, Option.getD_some, runeCount, Rune.list_bytesOf hinfix,
    List.length_append]

theorem column_passAll (h : Rune.list source = passed ++ more) :
    (Place.start.passAll passed).column =
      (passed.rtakeWhile fun rune => !rune.is '\n').length := by
  rw [Place.passAll_start (proper_of_list_eq h)]

/-- A position on the line on which a scan stands lies in the text if its column does. -/
theorem inText_iff (h : Rune.list source = passed ++ more)
    (hlines : source.count 0x0A < 0x100000000) {pos : Position}
    (hpos : pos.line = (Place.start.passAll passed).line) :
    (Location.ofPosition pos).InText source ↔
      pred32 pos.column ≤ (passed.rtakeWhile fun rune => !rune.is '\n').length +
        (more.takeWhile fun rune => !rune.is '\n').length := by
  have hline : pos.line = 1 + (Rune.bytesOf passed).count 0x0A := by
    rw [hpos, Place.passAll_start (proper_of_list_eq h)]
  have hcount := count_passed_le h
  have hpred : pred32 pos.line = (Rune.bytesOf passed).count 0x0A := by
    rw [pred32, hline]
    omega
  rw [Location.ofPosition, if_neg (by omega), Location.InText, hpred, runeCount_line h]
  exact and_iff_right hcount

theorem pred32_succ (n : Nat) : pred32 (n + 1) = n % 0x100000000 := by
  rw [pred32, Nat.add_assoc]
  exact Nat.add_mod_right n 0x100000000

/-- Wherever a scan stands before a rune lies in the text. -/
theorem inText_ahead (h : Rune.list source = passed ++ more)
    (hlines : source.count 0x0A < 0x100000000) :
    (Location.ofPosition (Place.start.passAll passed).ahead).InText source := by
  rw [inText_iff h hlines rfl, Place.ahead, pred32_succ, column_passAll h]
  exact (Nat.mod_le _ _).trans (Nat.le_add_right _ _)

end Scan

/-- No rune stands behind the last newline exactly if the text is empty or ends with one. -/
theorem rtakeWhile_list_eq_nil_iff (text : Bytes) :
    ((Rune.list text).rtakeWhile fun rune => !rune.is '\n') = [] ↔
      text = [] ∨ text.getLast? = some 0x0A := by
  have hbytes := Rune.rtakeWhile_bytesOf (Rune.proper_of_mem_list text)
  rw [Rune.bytesOf_list] at hbytes
  have hnil : ((Rune.list text).rtakeWhile fun rune => !rune.is '\n') = [] ↔
      (text.rtakeWhile fun byte => byte != 0x0A) = [] := by
    rw [hbytes]
    constructor
    · intro h
      rw [h]
      rfl
    · intro h
      by_contra hne
      obtain ⟨rune, rest, hrunes⟩ := List.exists_cons_of_ne_nil hne
      have hmem : rune ∈ Rune.list text :=
        (List.rtakeWhile_suffix _ _).subset (hrunes ▸ List.mem_cons_self)
      rw [hrunes, Rune.bytesOf_cons, List.append_eq_nil_iff] at h
      exact (Rune.proper_of_mem_list text rune hmem).bytes_ne_nil h.1
  rw [hnil]
  induction text using List.reverseRecOn with
  | nil => simp
  | append_singleton front byte => simp [List.rtakeWhile_concat]

/-- The end of a text lies in it unless its last line is empty. -/
theorem inText_ofEnd_iff {text : Bytes} (hlines : text.count 0x0A < 0x100000000) :
    (Location.ofPosition (.ofEnd text)).InText text ↔ text ≠ [] ∧ text.getLast? ≠ some 0x0A := by
  have hlist : Rune.list text = Rune.list text ++ [] := (List.append_nil _).symm
  rw [inText_iff hlist hlines rfl, Position.ofEnd, Place.atEnd, column_passAll hlist, ← not_or,
    ← rtakeWhile_list_eq_nil_iff, ← List.length_eq_zero_iff]
  generalize ((Rune.list text).rtakeWhile fun rune => !rune.is '\n').length = column
  cases column with
  | zero => exact iff_of_false (by simp [pred32]) (by simp)
  | succ column =>
      have hle := Nat.mod_le column 0x100000000
      simp only [pred32_succ, List.takeWhile_nil, List.length_nil]
      omega

/-- Behind a last newline, the end of a text is given the column zero. -/
theorem ofEnd_of_newline {text : Bytes} (h : text.getLast? = some 0x0A) :
    Position.ofEnd text = ⟨text.length, 1 + text.count 0x0A, 0⟩ := by
  rw [Position.ofEnd, Place.passAll_start (Rune.proper_of_mem_list text), Rune.bytesOf_list,
    (rtakeWhile_list_eq_nil_iff text).mpr (.inr h)]
  rfl

end Editor

end BitLang
