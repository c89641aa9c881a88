/-
# The token at an offset

Pointing at a byte of a text means the token that the byte belongs to: one of the bytes that
the scan has read for it.  The search for that token goes by the length of its text instead.
For a literal and for a mark both are the same, because their text is what was read.  The text
of a fault is longer than that by its message.

So the search is right at every offset but those just behind a fault, as many of them as the
message has bytes.  There it answers with the fault, whatever really stands there.
-/

import BitLang.Editor.Location
import BitLang.Proofs.Token.Tiling

namespace BitLang.Editor

open Scanner Cursor

/-! ## The search -/

/-- The search passes over the tokens whose text ends before the offset.  It finds the first
of the others, if that one starts no later than the offset. -/
theorem findToken_eq_some_iff {offset : Int} {tokens : List Token} {token : Token} :
    findToken offset tokens = some token ↔
      ∃ passed rest, tokens = passed ++ token :: rest ∧
        (∀ other ∈ passed, other.lexeme ≠ .endOfInput ∧
          other.pos.offset + other.text.length ≤ offset) ∧
        token.lexeme ≠ .endOfInput ∧ token.pos.offset ≤ offset ∧
        offset < token.pos.offset + token.text.length := by
  constructor
  · intro h
    fun_induction findToken offset tokens with
    | case1 => cases h
    | case2 => cases h
    | case3 first rest hstop hlt =>
        cases h
        rw [not_or, not_lt] at hstop
        exact ⟨[], rest, rfl, nofun, hstop.1, hstop.2, hlt⟩
    | case4 first rest hstop hge ih =>
        obtain ⟨passed, behind, rfl, hpassed, hfound⟩ := ih h
        refine ⟨first :: passed, behind, rfl, ?_, hfound⟩
        exact List.forall_mem_cons.mpr ⟨⟨(not_or.mp hstop).1, not_lt.mp hge⟩, hpassed⟩
  · rintro ⟨passed, rest, rfl, hpassed, hne, hle, hlt⟩
    induction passed with
    | nil =>
        rw [List.nil_append, findToken, if_neg (not_or.mpr ⟨hne, not_lt.mpr hle⟩), if_pos hlt]
    | cons other passed ih =>
        obtain ⟨⟨hother, hends⟩, hpassed⟩ := List.forall_mem_cons.mp hpassed
        rw [List.cons_append, findToken, if_neg (not_or.mpr ⟨hother, by omega⟩),
          if_neg (not_lt.mpr hends)]
        exact ih hpassed

/-! ## The bytes of a token -/

/-- The byte at the offset is one of those that the scan has read for the token. -/
def Covers (text : Bytes) (offset : Nat) (token : Token) : Prop :=
  ∃ k, nth text k = token ∧ token.lexeme ≠ .endOfInput ∧ token.pos.offset ≤ offset ∧
    offset < taken text (k + 1)

/-- The offset lies behind a fault, and no further than its message is long. -/
def InMessage (text : Bytes) (offset : Nat) : Prop :=
  ∃ k, (nth text k).lexeme = .fault ∧ taken text (k + 1) ≤ offset ∧
    offset < taken text (k + 1) + (messageOf .fault).length

section Search

variable {text : Bytes} {offset : Nat} {token : Token}

theorem tile_nth {k : Nat} (h : (nth text k).lexeme ≠ .endOfInput) :
    Tile text (taken text k) (nth text k) (taken text (k + 1)) :=
  (within_after text k).tile h

/-- The text of a token is as long as the bytes read for it and, in a fault, its message. -/
theorem offset_add_length_text {k : Nat} (h : (nth text k).lexeme ≠ .endOfInput) :
    (nth text k).pos.offset + (nth text k).text.length =
      taken text (k + 1) + (messageOf (nth text k).lexeme).length :=
  (tile_nth h).offset_add_length

/-- The search in terms of the tokens handed out one after another. -/
theorem tokenAt_eq_some_iff :
    tokenAt text offset = some token ↔
      ∃ k, nth text k = token ∧ token.lexeme ≠ .endOfInput ∧ token.pos.offset ≤ offset ∧
        offset < token.pos.offset + token.text.length ∧
        ∀ j < k, (nth text j).pos.offset + (nth text j).text.length ≤ offset := by
  obtain ⟨count, hbefore, hend, hscan⟩ := exists_scan_eq_map text
  have hscan : Token.scan text = (List.range' 0 (count + 1)).map (nth text) := by
    rw [hscan, ← List.range_eq_range', List.range_succ, List.map_append]
    rfl
  rw [tokenAt, findToken_eq_some_iff, hscan]
  constructor
  · rintro ⟨passed, rest, htokens, hpassed, hne, hle, hlt⟩
    obtain ⟨front, back, hrange, rfl, hback⟩ := List.map_eq_append_iff.mp htokens
    obtain ⟨k, behind, rfl, rfl, -⟩ := List.map_eq_cons_iff.mp hback
    obtain ⟨length, -, rfl, hcons⟩ := List.range'_eq_append_iff.mp hrange
    obtain ⟨hk, -⟩ := List.range'_eq_cons_iff.mp hcons.symm
    refine ⟨k, rfl, hne, by omega, by omega, fun j hj => ?_⟩
    have hmem : nth text j ∈ (List.range' 0 length).map (nth text) :=
      List.mem_map_of_mem (List.mem_range'_1.mpr ⟨Nat.zero_le j, by omega⟩)
    exact Int.ofNat_le.mp (hpassed _ hmem).2
  · rintro ⟨k, rfl, hne, hle, hlt, hpassed⟩
    have hk : k < count := by
      by_contra hge
      exact hne (end_of_le text (not_lt.mp hge) hend)
    refine ⟨(List.range' 0 k).map (nth text), (List.range' (k + 1) (count - k)).map (nth text),
      ?_, ?_, hne, by omega, by omega⟩
    · rw [← List.map_cons, ← List.map_append]
      congr 1
      refine List.range'_eq_append_iff.mpr ⟨k, by omega, rfl, ?_⟩
      exact (List.range'_eq_cons_iff.mpr ⟨by omega, by omega, by congr 1; omega⟩).symm
    · rintro other hother
      obtain ⟨j, hj, rfl⟩ := List.mem_map.mp hother
      have hj : j < k := by simpa using hj
      exact ⟨hbefore j (hj.trans hk), by exact_mod_cast hpassed j hj⟩

/-- A token that covers the offset is found, unless a fault comes before it whose message
covers the offset too. -/
theorem tokenAt_of_covers (hmessage : ¬InMessage text offset) (h : Covers text offset token) :
    tokenAt text offset = some token := by
  obtain ⟨k, rfl, hne, hle, hlt⟩ := h
  refine tokenAt_eq_some_iff.mpr ⟨k, rfl, hne, hle, ?_, fun j hj => ?_⟩
  · rw [offset_add_length_text hne]
    omega
  · have hj' : (nth text j).lexeme ≠ .endOfInput := fun hend => hne (end_of_le text hj.le hend)
    have htaken : taken text (j + 1) ≤ offset :=
      ((taken_mono text hj).trans (tile_nth hne).first_le).trans hle
    rw [offset_add_length_text hj']
    by_contra hlong
    by_cases hfault : (nth text j).lexeme = .fault
    · rw [hfault] at hlong
      exact hmessage ⟨j, hfault, htaken, by omega⟩
    · rw [messageOf_eq_nil hfault] at hlong
      exact hlong htaken

/-- What is found covers the offset, or is a fault whose message does. -/
theorem covers_or_inMessage (h : tokenAt text offset = some token) :
    Covers text offset token ∨ InMessage text offset := by
  obtain ⟨k, rfl, hne, hle, hlt, -⟩ := tokenAt_eq_some_iff.mp h
  rw [offset_add_length_text hne] at hlt
  by_cases htaken : offset < taken text (k + 1)
  · exact .inl ⟨k, rfl, hne, hle, htaken⟩
  · by_cases hfault : (nth text k).lexeme = .fault
    · rw [hfault] at hlt
      exact .inr ⟨k, hfault, not_lt.mp htaken, hlt⟩
    · rw [messageOf_eq_nil hfault] at hlt
      exact absurd hlt htaken

/-- In the message of a fault, a token is found that does not cover the offset: that fault, or
an earlier one with a message of the same length. -/
theorem exists_tokenAt_of_inMessage (h : InMessage text offset) :
    ∃ token, tokenAt text offset = some token ∧ ¬Covers text offset token := by
  obtain ⟨k, hfault, htaken, hlt⟩ := h
  have hne (j : Nat) (hj : j ≤ k) : (nth text j).lexeme ≠ .endOfInput := by
    intro hend
    cases hfault.symm.trans (end_of_le text hj hend)
  have hlong : offset < (nth text k).pos.offset + (nth text k).text.length := by
    rw [offset_add_length_text (hne k (Nat.le_refl k)), hfault]
    exact hlt
  have hexists : ∃ j, offset < (nth text j).pos.offset + (nth text j).text.length := ⟨k, hlong⟩
  obtain ⟨j, hj, hpassed⟩ := Nat.findX hexists
  have hjk : j ≤ k := by
    by_contra hgt
    exact hpassed k (not_le.mp hgt) hlong
  have hbehind : taken text (j + 1) ≤ offset :=
    (taken_mono text (Nat.succ_le_succ hjk)).trans htaken
  have hstart := (tile_nth (hne j hjk)).offset_lt
  refine ⟨nth text j, tokenAt_eq_some_iff.mpr ⟨j, rfl, hne j hjk, by omega, hj, ?_⟩, ?_⟩
  · exact fun i hi => not_lt.mp (hpassed i hi)
  · rintro ⟨i, hi, hcovers, -, hread⟩
    rcases Nat.lt_or_ge j i with hlater | hearlier
    · -- a later token starts behind this one
      rw [← hi] at hcovers hstart
      have hle : taken text (j + 1) ≤ taken text i := taken_mono text hlater
      have hfirst := (tile_nth hcovers).first_le
      omega
    · have hle : taken text (i + 1) ≤ taken text (j + 1) :=
        taken_mono text (Nat.succ_le_succ hearlier)
      omega

/-- The search for the token at an offset finds the token that covers it, and nothing where
none does, at every offset that does not lie in the message of a fault; and only there. -/
theorem tokenAt_eq_some_iff_covers_iff (text : Bytes) (offset : Nat) :
    (∀ token, tokenAt text offset = some token ↔ Covers text offset token) ↔
      ¬InMessage text offset := by
  constructor
  · intro h hmessage
    obtain ⟨token, hfound, hcovers⟩ := exists_tokenAt_of_inMessage hmessage
    exact hcovers ((h token).mp hfound)
  · intro hmessage token
    exact ⟨fun h => (covers_or_inMessage h).resolve_right hmessage, tokenAt_of_covers hmessage⟩

end Search

/-- A number that takes more than 64 bits, a blank and a mark. -/
def largeThenMark : Bytes := utf8 "99999999999999999999 $"

/-- The fault is found at the blank behind it, which belongs to no token. -/
theorem tokenAt_blank_behind_fault :
    ¬∀ token, tokenAt largeThenMark 20 = some token ↔ Covers largeThenMark 20 token := by
  have hmessage : InMessage largeThenMark 20 := ⟨0, by decide, by decide, by decide⟩
  intro h
  obtain ⟨token, hfound, hcovers⟩ := exists_tokenAt_of_inMessage hmessage
  exact hcovers ((h token).mp hfound)

end BitLang.Editor
