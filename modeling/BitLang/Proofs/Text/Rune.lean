/-
# Texts one after another

No encoding of a rune contains an ASCII byte besides the runes that are ASCII themselves.
Wherever such a byte comes next, a text that is cut off in the middle of an encoding reads
as it does on its own, so the runes of the two texts are the runes of both together.
-/

import BitLang.Text.Rune

namespace BitLang.Rune

/-- The rune that an ASCII byte spells. -/
def ascii (byte : UInt8) : Rune := ⟨byte.toNat, [byte]⟩

/-- The text is empty or starts with a byte that continues no encoding. -/
def StartsAnew (text : Bytes) : Prop := ∀ byte ∈ text.head?, isContinuation byte = false

section Append

variable (lead : UInt8) (front : Bytes) {back : Bytes} (h : StartsAnew back)
include h

theorem two?_append : two? lead (front ++ back) = two? lead front := by
  match front, back with
  | _ :: _, _ => rfl
  | [], [] => rfl
  | [], b :: _ => simp [two?, h b rfl]

theorem three?_append : three? lead (front ++ back) = three? lead front := by
  match front, back with
  | _ :: _ :: _, _ => rfl
  | [], [] | [_], [] => rfl
  | [], [_] => rfl
  | [], b :: _ :: _ => simp [three?, h b rfl]
  | [_], b :: _ => simp [three?, h b rfl]

theorem four?_append : four? lead (front ++ back) = four? lead front := by
  match front, back with
  | _ :: _ :: _ :: _, _ => rfl
  | [], [] | [_], [] | [_, _], [] => rfl
  | [], [_] | [], [_, _] | [_], [_] => rfl
  | [], b :: _ :: _ :: _ => simp [four?, h b rfl]
  | [_], b :: _ :: _ => simp [four?, h b rfl]
  | [_, _], b :: _ => simp [four?, h b rfl]

theorem first_append : first lead (front ++ back) = first lead front := by
  simp only [first, two?_append lead front h, three?_append lead front h,
    four?_append lead front h]

end Append

/-- A rune takes no more bytes than there are. -/
theorem length_first (lead : UInt8) (rest : Bytes) :
    (first lead rest).bytes.length ≤ rest.length + 1 := by
  have htwo {rune : Rune} (h : two? lead rest = some rune) :
      rune.bytes.length ≤ rest.length + 1 := by
    unfold two? at h
    split at h
    · split at h <;> cases h
      simp
    · cases h
  have hthree {rune : Rune} (h : three? lead rest = some rune) :
      rune.bytes.length ≤ rest.length + 1 := by
    unfold three? at h
    split at h
    · split at h <;> cases h
      simp
    · cases h
  have hfour {rune : Rune} (h : four? lead rest = some rune) :
      rune.bytes.length ≤ rest.length + 1 := by
    unfold four? at h
    split at h
    · split at h <;> cases h
      simp
    · cases h
  rw [first]
  split
  · simp
  · cases hread : (two? lead rest).or ((three? lead rest).or (four? lead rest)) with
    | none => simp
    | some rune =>
        rw [Option.or_eq_some_iff, Option.or_eq_some_iff] at hread
        rcases hread with h | ⟨-, h | ⟨-, h⟩⟩
        · exact htwo h
        · exact hthree h
        · exact hfour h

theorem listFrom_append {front back : Bytes} (h : StartsAnew back) {skip : Nat}
    (hskip : skip ≤ front.length) :
    listFrom skip (front ++ back) = listFrom skip front ++ list back := by
  induction front generalizing skip with
  | nil =>
      obtain rfl := Nat.le_zero.mp hskip
      rfl
  | cons lead rest ih =>
      cases skip with
      | succ skip => exact ih (Nat.le_of_succ_le_succ hskip)
      | zero =>
          have hlength := length_first lead rest
          rw [List.cons_append, listFrom, listFrom, first_append lead rest h]
          rw [ih (by omega), List.cons_append]

/-- The runes of two texts, the second of which starts anew. -/
theorem list_append (front : Bytes) {back : Bytes} (h : StartsAnew back) :
    list (front ++ back) = list front ++ list back :=
  listFrom_append h (Nat.zero_le _)

/-- ASCII bytes are runes of their own. -/
theorem list_ascii {text : Bytes} (h : ∀ byte ∈ text, byte < 0x80) :
    list text = text.map ascii := by
  induction text with
  | nil => rfl
  | cons byte rest ih =>
      obtain ⟨hbyte, hrest⟩ := List.forall_mem_cons.mp h
      have hfirst : first byte rest = ascii byte := if_pos hbyte
      rw [List.map_cons, ← ih hrest, list, listFrom, hfirst]
      rfl

end BitLang.Rune
