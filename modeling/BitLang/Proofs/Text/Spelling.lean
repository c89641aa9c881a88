/-
# Runes and the bytes that spell them

The runes of a text, spelled out one after another, are the text.  A rune is known apart by
the bytes it takes: an ASCII rune takes its own byte and nothing else, and every other rune
takes bytes that no ASCII rune takes.  And a run of runes cut out of a text reads as the same
runes on its own, wherever the cuts fall between runes.
-/

import BitLang.Proofs.Text.Rune
import Mathlib.Algebra.Group.Nat.Defs
import Mathlib.Data.List.DropRight

namespace BitLang.Rune

/-! ## The first rune of a text -/

/-- The rune is spelled by the byte `lead` and the first of the bytes behind it, and neither
its code nor any of these bytes is ASCII. -/
structure Leads (lead : UInt8) (rest : Bytes) (rune : Rune) : Prop where
  code_ge : 0x80 ≤ rune.code
  bytes_ge : ∀ byte ∈ rune.bytes, 0x80 ≤ byte
  bytes_eq : ∃ more, more <+: rest ∧ rune.bytes = lead :: more

theorem toNat_and_mask (byte mask : UInt8) {width : Nat}
    (h : mask.toNat = 2 ^ width - 1) : (byte &&& mask).toNat = byte.toNat % 2 ^ width := by
  rw [UInt8.toNat_and, h, Nat.and_two_pow_sub_one_eq_mod]

section Encodings

variable {lead : UInt8} {rest : Bytes} {rune : Rune}

theorem leads_of_two? (h : two? lead rest = some rune) : Leads lead rest rune := by
  match rest with
  | [] => cases h
  | b :: rest =>
    simp only [two?, isContinuation, Option.ite_none_right_eq_some, Bool.and_eq_true,
      decide_eq_true_eq, UInt8.le_iff_toNat_le, UInt8.reduceToNat, Option.some.injEq] at h
    obtain ⟨⟨hlead, hb⟩, rfl⟩ := h
    refine ⟨?_, ?_, [b], ⟨rest, rfl⟩, rfl⟩
    · have hcode := toNat_and_mask lead 0x1F (rfl : _ = 2 ^ 5 - 1)
      dsimp only
      omega
    · simp only [List.forall_mem_cons, UInt8.le_iff_toNat_le, UInt8.reduceToNat]
      exact ⟨by omega, hb.1, by simp⟩

theorem leads_of_three? (h : three? lead rest = some rune) : Leads lead rest rune := by
  match rest with
  | [] | [_] => cases h
  | b :: c :: rest =>
    simp only [three?, isContinuation, Option.ite_none_right_eq_some, Bool.and_eq_true,
      Bool.or_eq_true, bne_iff_ne, ne_eq, ← UInt8.toNat_inj, decide_eq_true_eq,
      UInt8.le_iff_toNat_le, UInt8.reduceToNat, Option.some.injEq] at h
    obtain ⟨⟨⟨⟨⟨hlead, hb⟩, hc⟩, hoverlong⟩, -⟩, rfl⟩ := h
    refine ⟨?_, ?_, [b, c], ⟨rest, rfl⟩, rfl⟩
    · have hcode := toNat_and_mask lead 0x0F (rfl : _ = 2 ^ 4 - 1)
      have hpayload := toNat_and_mask b 0x3F (rfl : _ = 2 ^ 6 - 1)
      dsimp only [payload]
      omega
    · simp only [List.forall_mem_cons, UInt8.le_iff_toNat_le, UInt8.reduceToNat]
      exact ⟨by omega, hb.1, hc.1, by simp⟩

theorem leads_of_four? (h : four? lead rest = some rune) : Leads lead rest rune := by
  match rest with
  | [] | [_] | [_, _] => cases h
  | b :: c :: d :: rest =>
    simp only [four?, isContinuation, Option.ite_none_right_eq_some, Bool.and_eq_true,
      Bool.or_eq_true, bne_iff_ne, ne_eq, ← UInt8.toNat_inj, decide_eq_true_eq,
      UInt8.le_iff_toNat_le, UInt8.reduceToNat, Option.some.injEq] at h
    obtain ⟨⟨⟨⟨⟨⟨hlead, hb⟩, hc⟩, hd⟩, hoverlong⟩, -⟩, rfl⟩ := h
    refine ⟨?_, ?_, [b, c, d], ⟨rest, rfl⟩, rfl⟩
    · have hcode := toNat_and_mask lead 0x07 (rfl : _ = 2 ^ 3 - 1)
      have hpayload := toNat_and_mask b 0x3F (rfl : _ = 2 ^ 6 - 1)
      dsimp only [payload]
      omega
    · simp only [List.forall_mem_cons, UInt8.le_iff_toNat_le, UInt8.reduceToNat]
      exact ⟨by omega, hb.1, hc.1, hd.1, by simp⟩

end Encodings

theorem first_ascii {lead : UInt8} (h : lead < 0x80) (rest : Bytes) :
    first lead rest = ascii lead := if_pos h

theorem leads_first {lead : UInt8} (h : ¬ lead < 0x80) (rest : Bytes) :
    Leads lead rest (first lead rest) := by
  rw [first, if_neg h]
  cases hread : (two? lead rest).or ((three? lead rest).or (four? lead rest)) with
  | none =>
      refine ⟨show 0x80 ≤ replacement by decide, ?_, [], List.nil_prefix, rfl⟩
      simpa using h
  | some rune =>
      rw [Option.or_eq_some_iff, Option.or_eq_some_iff] at hread
      rcases hread with h | ⟨-, h | ⟨-, h⟩⟩
      · exact leads_of_two? h
      · exact leads_of_three? h
      · exact leads_of_four? h

/-- A rune takes the first bytes of its text. -/
theorem exists_bytes_first (lead : UInt8) (rest : Bytes) :
    ∃ more behind, rest = more ++ behind ∧ (first lead rest).bytes = lead :: more := by
  by_cases h : lead < 0x80
  · rw [first_ascii h]
    exact ⟨[], rest, rfl, rfl⟩
  · obtain ⟨more, ⟨behind, hbehind⟩, hbytes⟩ := (leads_first h rest).bytes_eq
    exact ⟨more, behind, hbehind.symm, hbytes⟩

/-! ### Cutting a text short -/

section Truncate

variable (lead : UInt8) (front back : Bytes)

theorem two?_truncate : two? lead front =
    (two? lead (front ++ back)).filter fun rune => rune.bytes.length ≤ front.length + 1 := by
  match front, back with
  | b :: front, _ =>
    simp only [List.cons_append, two?]
    split <;> simp [Option.filter_some]
  | [], [] => rfl
  | [], b :: _ =>
    simp only [List.nil_append, two?]
    split <;> simp [Option.filter_some]

theorem three?_truncate : three? lead front =
    (three? lead (front ++ back)).filter fun rune => rune.bytes.length ≤ front.length + 1 := by
  match front, back with
  | b :: c :: front, _ =>
    simp only [List.cons_append, three?]
    split <;> simp [Option.filter_some]
  | [], [] | [], [_] | [_], [] => rfl
  | [], b :: c :: _ | [b], c :: _ =>
    simp only [List.cons_append, List.nil_append, three?]
    split <;> simp [Option.filter_some]

theorem four?_truncate : four? lead front =
    (four? lead (front ++ back)).filter fun rune => rune.bytes.length ≤ front.length + 1 := by
  match front, back with
  | b :: c :: d :: front, _ =>
    simp only [List.cons_append, four?]
    split <;> simp [Option.filter_some]
  | [], [] | [], [_] | [], [_, _] | [_], [] | [_], [_] | [_, _], [] => rfl
  | [], b :: c :: d :: _ | [b], c :: d :: _ | [b, c], d :: _ =>
    simp only [List.cons_append, List.nil_append, four?]
    split <;> simp [Option.filter_some]

end Truncate

/-- The first rune of a text is also that of every part that holds all its bytes. -/
theorem first_truncate {lead : UInt8} {front back : Bytes}
    (h : (first lead (front ++ back)).bytes.length ≤ front.length + 1) :
    first lead front = first lead (front ++ back) := by
  unfold first at h ⊢
  rw [two?_truncate lead front back, three?_truncate lead front back,
    four?_truncate lead front back]
  split
  · rfl
  · next hlead =>
      rw [if_neg hlead] at h
      generalize two? lead (front ++ back) = two, three? lead (front ++ back) = three,
        four? lead (front ++ back) = four at h ⊢
      cases two with
      | some rune => simp_all [Option.filter_some]
      | none =>
          cases three with
          | some rune => simp_all [Option.filter_some]
          | none => cases four <;> simp_all [Option.filter_some]

/-! ## All runes of a text -/

theorem listFrom_eq (skip : Nat) (text : Bytes) : listFrom skip text = list (text.drop skip) := by
  induction skip generalizing text with
  | zero => rfl
  | succ skip ih =>
      cases text with
      | nil => rfl
      | cons lead rest => exact ih rest

theorem list_cons {lead : UInt8} {more behind : Bytes}
    (h : (first lead (more ++ behind)).bytes = lead :: more) :
    list (lead :: (more ++ behind)) = first lead (more ++ behind) :: list behind := by
  rw [list, listFrom, listFrom_eq, h]
  simp

/-- The first of the runes of a text, the bytes it takes and what is behind them. -/
theorem exists_of_list_eq_cons {text : Bytes} {rune : Rune} {runes : List Rune}
    (h : list text = rune :: runes) :
    ∃ lead more behind, text = lead :: (more ++ behind) ∧ first lead (more ++ behind) = rune ∧
      rune.bytes = lead :: more ∧ list behind = runes := by
  cases text with
  | nil => cases h
  | cons lead rest =>
      obtain ⟨more, behind, rfl, hbytes⟩ := exists_bytes_first lead rest
      rw [list_cons hbytes] at h
      cases h
      exact ⟨lead, more, behind, rfl, rfl, hbytes, rfl⟩

theorem bytesOf_append (front back : List Rune) :
    bytesOf (front ++ back) = bytesOf front ++ bytesOf back := List.flatMap_append

theorem bytesOf_cons (rune : Rune) (runes : List Rune) :
    bytesOf (rune :: runes) = rune.bytes ++ bytesOf runes := rfl

/-- Runes spelled out are their text. -/
theorem bytesOf_list (text : Bytes) : bytesOf (list text) = text := by
  generalize hrunes : list text = runes
  induction runes generalizing text with
  | nil =>
      cases text with
      | nil => rfl
      | cons lead rest => cases hrunes
  | cons rune runes ih =>
      obtain ⟨lead, more, behind, rfl, -, hbytes, hbehind⟩ := exists_of_list_eq_cons hrunes
      rw [bytesOf_cons, hbytes, ih behind hbehind, List.cons_append]

/-- What every rune of a text is like. -/
inductive Proper : Rune → Prop
  | ascii {byte : UInt8} (h : byte < 0x80) : Proper (ascii byte)
  | wide {lead : UInt8} {rest : Bytes} {rune : Rune} (h : Leads lead rest rune) : Proper rune

theorem proper_of_mem_list (text : Bytes) : ∀ rune ∈ list text, rune.Proper := by
  generalize hrunes : list text = runes
  induction runes generalizing text with
  | nil => exact fun _ hmem => nomatch hmem
  | cons rune runes ih =>
      obtain ⟨lead, more, behind, rfl, hfirst, -, hbehind⟩ := exists_of_list_eq_cons hrunes
      refine List.forall_mem_cons.mpr ⟨?_, ih behind hbehind⟩
      by_cases hlead : lead < 0x80
      · rw [← hfirst, first_ascii hlead]
        exact .ascii hlead
      · rw [← hfirst]
        exact .wide (leads_first hlead _)

theorem Proper.bytes_ne_nil {rune : Rune} (h : rune.Proper) : rune.bytes ≠ [] := by
  cases h with
  | ascii h => exact List.cons_ne_nil _ _
  | wide h =>
      obtain ⟨more, -, hbytes⟩ := h.bytes_eq
      rw [hbytes]
      exact List.cons_ne_nil _ _

/-- An ASCII code is spelled by its byte. -/
theorem Proper.exists_ascii {rune : Rune} (h : rune.Proper) (hcode : rune.code < 0x80) :
    ∃ byte : UInt8, byte < 0x80 ∧ rune = Rune.ascii byte := by
  cases h with
  | ascii h => exact ⟨_, h, rfl⟩
  | wide h => exact absurd h.code_ge (Nat.not_le_of_lt hcode)

/-! ### Parts of a text -/

theorem list_bytesOf_back {text : Bytes} {front back : List Rune}
    (h : list text = front ++ back) : list (bytesOf back) = back := by
  induction front generalizing text with
  | nil => rw [← List.nil_append back, ← h, bytesOf_list]
  | cons rune front ih =>
      obtain ⟨_, _, behind, -, -, -, hbehind⟩ := exists_of_list_eq_cons h
      exact ih hbehind

theorem list_bytesOf_front {text : Bytes} {front back : List Rune}
    (h : list text = front ++ back) : list (bytesOf front) = front := by
  induction front generalizing text with
  | nil => rfl
  | cons rune front ih =>
      obtain ⟨lead, more, behind, -, hfirst, hbytes, hbehind⟩ := exists_of_list_eq_cons h
      -- the text behind the first rune is cut after the front
      have hcut : behind = bytesOf front ++ bytesOf back := by
        rw [← bytesOf_append, ← bytesOf_list behind, hbehind]
        rfl
      rw [hcut, ← List.append_assoc] at hfirst
      have hsame : first lead (more ++ bytesOf front) = rune := by
        rw [← hfirst]
        refine first_truncate ?_
        rw [hfirst, hbytes]
        simp
      rw [bytesOf_cons, hbytes, List.cons_append, list_cons (hsame ▸ hbytes), hsame, ih hbehind]

/-- A run of runes out of a text reads as the same runes on its own. -/
theorem list_bytesOf {text : Bytes} {runes : List Rune} (h : runes <:+: list text) :
    list (bytesOf runes) = runes := by
  obtain ⟨front, back, h⟩ := h
  exact list_bytesOf_back (list_bytesOf_front h.symm)

theorem startsAnew_ascii {byte : UInt8} (h : byte < 0x80) (rest : Bytes) :
    StartsAnew (byte :: rest) := by
  rintro _ ⟨⟩
  simp [isContinuation, UInt8.not_le.mpr h]

theorem list_cons_ascii {byte : UInt8} (h : byte < 0x80) (rest : Bytes) :
    list (byte :: rest) = ascii byte :: list rest := by
  have hfirst := first_ascii h rest
  rw [← List.nil_append rest, list_cons (by simp [hfirst, ascii]), List.nil_append, hfirst]

/-- The runes of two texts, the first of which is empty or ends with an ASCII byte. -/
theorem list_append_of_ascii {front : Bytes} (h : ∀ byte ∈ front.getLast?, byte < 0x80)
    (back : Bytes) : list (front ++ back) = list front ++ list back := by
  induction front using List.reverseRecOn with
  | nil => rfl
  | append_singleton front byte _ =>
      have hbyte : byte < 0x80 := h byte (by simp)
      rw [List.append_assoc, List.singleton_append, list_append front (startsAnew_ascii hbyte back),
        list_append front (startsAnew_ascii hbyte []), list_cons_ascii hbyte, list_cons_ascii hbyte,
        List.append_assoc]
      rfl

end BitLang.Rune
