/-
# Tokens tile their text

Asked for one token after another, a cursor comes to the end of the text after finitely many
and stays there.  Until then each request takes the next piece of the text: layout, then the
bytes that the token is spelled by.  The pieces lie end to end, so the offsets of tokens
increase, and what is left behind the last of them is no more than a text may end with.  The
line and the column of a token are those its offset has in the text.
-/

import BitLang.Proofs.Token.Cursor
import Mathlib.Order.Monotone.Basic
import Mathlib.Order.Nat

namespace BitLang

open Scanner

/-- The piece of a text from one offset to another is layout and then, not empty, the spelling
of a token.  The position of the token is true, and its text is the spelling, behind a message
if the token is a fault. -/
structure Tile (source : Bytes) (first : Nat) (token : Token) (last : Nat) : Prop where
  first_le : first ≤ token.pos.offset
  offset_lt : token.pos.offset < last
  last_le : last ≤ source.length
  layout : IsLayout (Rune.list (source.extract first token.pos.offset))
  text_eq : token.text = messageOf token.lexeme ++ source.extract token.pos.offset last
  pos_eq : token.pos = .ofOffset source token.pos.offset

/-- The text of a token is as long as its spelling and, in a fault, the message. -/
theorem Tile.offset_add_length {source : Bytes} {first last : Nat} {token : Token}
    (h : Tile source first token last) :
    token.pos.offset + token.text.length = last + (messageOf token.lexeme).length := by
  have hlength : (source.extract token.pos.offset last).length = last - token.pos.offset := by
    have := h.last_le
    simp only [List.extract_eq_take_drop, List.length_take, List.length_drop]
    omega
  have := h.offset_lt
  rw [h.text_eq, List.length_append, hlength]
  omega

theorem Tile.offset_stop {source : Bytes} {first last : Nat} {token : Token}
    (h : Tile source first token last) (hfault : token.lexeme ≠ .fault) :
    token.stop.offset = last := by
  have hlength := h.offset_add_length
  rw [messageOf_eq_nil hfault] at hlength
  exact hlength

namespace Cursor

/-- The cursor after the given number of requests. -/
def after (source : Bytes) : Nat → Cursor
  | 0 => start source
  | count + 1 => (after source count).next.2

/-- The token that is handed out after the given number of others. -/
def nth (source : Bytes) (index : Nat) : Token := (after source index).next.1

/-- How many bytes of a text the given number of requests take. -/
def taken (source : Bytes) (count : Nat) : Nat := (after source count).place.offset

/-- The cursor stands in the text: some of its runes are passed and the others lie ahead. -/
def Within (source : Bytes) (c : Cursor) : Prop :=
  ∃ passed, Rune.list source = passed ++ c.ahead ∧ c.place = Place.start.passAll passed

/-! ## One request -/

theorem within_start (source : Bytes) : (start source).Within source := ⟨[], rfl, rfl⟩

section Step

variable {source : Bytes} {c : Cursor}

theorem Within.next (h : c.Within source) : c.next.2.Within source := by
  obtain ⟨passed, hsource, hplace⟩ := h
  by_cases hend : c.next.1.lexeme = .endOfInput
  · obtain ⟨-, hnext⟩ := next_of_eq hend
    refine ⟨passed ++ c.ahead, ?_, ?_⟩
    · rw [hnext, hsource, List.append_nil]
    · rw [hnext, hplace, Place.passAll_append]
  · obtain ⟨gap, spelling, rest, hahead, -, -, -, hnext⟩ := exists_of_next_ne hend
    refine ⟨passed ++ (gap ++ spelling), ?_, ?_⟩
    · simp only [hnext, hsource, hahead, List.append_assoc]
    · rw [hnext, hplace, Place.passAll_append _ passed]

/-- A request never goes back. -/
theorem offset_le_next (c : Cursor) : c.place.offset ≤ c.next.2.place.offset := by
  by_cases hend : c.next.1.lexeme = .endOfInput
  · rw [(next_of_eq hend).2, Place.offset_passAll]
    exact Nat.le_add_right _ _
  · obtain ⟨gap, spelling, rest, -, -, -, -, hnext⟩ := exists_of_next_ne hend
    rw [hnext, Place.offset_passAll]
    exact Nat.le_add_right _ _

/-- A token takes at least one rune. -/
theorem length_next_lt (h : c.next.1.lexeme ≠ .endOfInput) :
    c.next.2.ahead.length < c.ahead.length := by
  obtain ⟨gap, spelling, rest, hahead, -, hspelling, -, hnext⟩ := exists_of_next_ne h
  have := List.length_pos_iff.mpr hspelling
  simp only [hahead, hnext, List.length_append]
  omega

/-- Where nothing lies ahead, there is nothing but the end. -/
theorem next_of_ahead_nil (h : c.ahead = []) : c.next.1.lexeme = .endOfInput := by
  by_contra hne
  have := length_next_lt hne
  simp [h] at this

/-- The bytes of a run of runes stand between their offsets. -/
theorem extract_bytesOf {front runes back : List Rune}
    (h : Rune.list source = front ++ runes ++ back) :
    source.extract (Rune.bytesOf front).length (Rune.bytesOf (front ++ runes)).length =
      Rune.bytesOf runes := by
  rw [← Rune.bytesOf_list source, h, Rune.bytesOf_append, Rune.bytesOf_append]
  simp

/-- Runes of a text that are layout and then the spelling of a token make up a piece of it. -/
theorem tile_of_list_eq {passed gap spelling rest : List Rune} {token : Token}
    (hlist : Rune.list source = passed ++ gap ++ spelling ++ rest) (hgap : IsLayout gap)
    (hspelling : spelling ≠ [])
    (hspelled : IsSpelled token (Place.start.passAll (passed ++ gap)).ahead spelling) :
    Tile source (Rune.bytesOf passed).length token
      (Rune.bytesOf (passed ++ gap ++ spelling)).length := by
  have hpos : token.pos.offset = (Rune.bytesOf (passed ++ gap)).length := by
    rw [hspelled.pos_eq, ← Place.offset_passAll_start]
    rfl
  have hrest := hlist.trans (List.append_assoc _ _ _)
  have hinfix : gap <:+: Rune.list source := ⟨passed, spelling ++ rest, hrest.symm⟩
  have hnonempty : Rune.bytesOf spelling ≠ [] := by
    obtain ⟨rune, more, rfl⟩ := List.exists_cons_of_ne_nil hspelling
    have hproper := Rune.proper_of_mem_list source rune (by simp [hlist])
    exact List.append_ne_nil_of_left_ne_nil hproper.bytes_ne_nil _
  refine ⟨?_, ?_, ?_, ?_, ?_, ?_⟩
  · rw [hpos, Rune.bytesOf_append, List.length_append]
    exact Nat.le_add_right _ _
  · rw [hpos, Rune.bytesOf_append _ spelling, List.length_append]
    exact Nat.lt_add_of_pos_right (List.length_pos_iff.mpr hnonempty)
  · rw [← Rune.bytesOf_list source, hlist, Rune.bytesOf_append _ rest, List.length_append]
    exact Nat.le_add_right _ _
  · rw [hpos, extract_bytesOf hrest, Rune.list_bytesOf hinfix]
    exact hgap
  · rw [hpos, extract_bytesOf hlist, hspelled.text_eq]
  · rw [hspelled.pos_eq]
    exact Place.ahead_passAll_start hrest

/-- A token and the layout before it are the next piece of the text. -/
theorem Within.tile (h : c.Within source) (hne : c.next.1.lexeme ≠ .endOfInput) :
    Tile source c.place.offset c.next.1 c.next.2.place.offset := by
  obtain ⟨passed, hsource, hplace⟩ := h
  obtain ⟨gap, spelling, rest, hahead, hgap, hspelling, hspelled, hnext⟩ := exists_of_next_ne hne
  rw [hplace, ← Place.passAll_append] at hspelled
  have hlist : Rune.list source = passed ++ gap ++ spelling ++ rest := by
    rw [hsource, hahead]
    simp only [List.append_assoc]
  rw [hnext, hplace, ← Place.passAll_append, Place.offset_passAll_start,
    Place.offset_passAll_start, ← List.append_assoc]
  exact tile_of_list_eq hlist hgap hspelling hspelled

/-- Where the tokens end, the text goes on as a text may end. -/
theorem Within.isTrailing (h : c.Within source) (hend : c.next.1.lexeme = .endOfInput) :
    IsTrailing (Rune.list (source.drop c.place.offset)) := by
  obtain ⟨passed, hsource, hplace⟩ := h
  have hrest : source.drop c.place.offset = Rune.bytesOf c.ahead := by
    rw [hplace, Place.offset_passAll_start, ← Rune.bytesOf_list source, hsource,
      Rune.bytesOf_append, List.drop_left]
  rw [hrest, Rune.list_bytesOf_back hsource]
  exact (next_of_eq hend).1

end Step

/-! ## All requests -/

section Run

variable (source : Bytes)

theorem within_after (count : Nat) : (after source count).Within source := by
  induction count with
  | zero => exact within_start source
  | succ count ih => exact ih.next

theorem taken_mono : Monotone (taken source) :=
  monotone_nat_of_le_succ fun count => offset_le_next (after source count)

/-- Tokens, however many, take at least one rune each. -/
theorem length_ahead_add_le (count : Nat) (h : ∀ k < count, (nth source k).lexeme ≠ .endOfInput) :
    (after source count).ahead.length + count ≤ (Rune.list source).length := by
  induction count with
  | zero => exact Nat.le_refl _
  | succ count ih =>
      have hbefore := ih fun k hk => h k (Nat.lt_succ_of_lt hk)
      have hnext := length_next_lt (h count (Nat.lt_succ_self count))
      change (after source count).next.2.ahead.length + _ ≤ _
      omega

theorem exists_end : ∃ count, (nth source count).lexeme = .endOfInput := by
  by_contra h
  have hall := length_ahead_add_le source ((Rune.list source).length + 1)
    fun k _ hend => h ⟨k, hend⟩
  omega

/-- Behind the end is the end again. -/
theorem end_of_le {count later : Nat} (hle : count ≤ later)
    (h : (nth source count).lexeme = .endOfInput) : (nth source later).lexeme = .endOfInput := by
  induction later, hle using Nat.le_induction with
  | base => exact h
  | succ later _ ih =>
      refine next_of_ahead_nil ?_
      change (after source later).next.2.ahead = []
      rw [(next_of_eq ih).2]

/-- The end is at the end of the text. -/
theorem nth_of_eq {count : Nat} (h : (nth source count).lexeme = .endOfInput) :
    nth source count = ⟨.endOfInput, [], (Place.start.passAll (Rune.list source)).atEnd⟩ := by
  obtain ⟨passed, hsource, hplace⟩ := within_after source count
  rw [hsource, Place.passAll_append, ← hplace]
  exact fst_next_of_eq h

theorem offset_nth_of_eq {count : Nat} (h : (nth source count).lexeme = .endOfInput) :
    (nth source count).pos.offset = source.length := by
  rw [nth_of_eq source h]
  exact (Place.offset_passAll_start _).trans (congrArg List.length (Rune.bytesOf_list source))

/-- The tokens of the scan are those handed out before and those still ahead. -/
theorem scan_eq_append {count : Nat} (h : ∀ k < count, (nth source k).lexeme ≠ .endOfInput) :
    Token.scan source = (List.range count).map (nth source) ++
      tokensFrom .layout (after source count).place (after source count).ahead := by
  induction count with
  | zero => exact scan_eq source
  | succ count ih =>
      have hne : (after source count).next.1.lexeme ≠ .endOfInput :=
        h count (Nat.lt_succ_self count)
      rw [ih fun k hk => h k (Nat.lt_succ_of_lt hk), tokensFrom_next, if_neg hne, List.range_succ,
        List.map_append, List.append_assoc]
      rfl

/-- The tokens of the scan are those handed out before the end, and the end. -/
theorem exists_scan_eq_map :
    ∃ count, (∀ k < count, (nth source k).lexeme ≠ .endOfInput) ∧
      (nth source count).lexeme = .endOfInput ∧
      Token.scan source = (List.range count).map (nth source) ++ [nth source count] := by
  have hexists := exists_end source
  have hbefore (k : Nat) (hk : k < Nat.find hexists) : (nth source k).lexeme ≠ .endOfInput :=
    Nat.find_min hexists hk
  have hend : (after source (Nat.find hexists)).next.1.lexeme = .endOfInput :=
    Nat.find_spec hexists
  refine ⟨Nat.find hexists, hbefore, hend, ?_⟩
  rw [scan_eq_append source hbefore, tokensFrom_next, if_pos hend]
  rfl

end Run

end Cursor

namespace Token

open Cursor

theorem exists_scan_eq (source : Bytes) :
    ∃ tokens last, scan source = tokens ++ [last] ∧
      (∀ token ∈ tokens, token.lexeme ≠ .endOfInput) ∧ last.lexeme = .endOfInput := by
  obtain ⟨count, hbefore, hend, hscan⟩ := exists_scan_eq_map source
  refine ⟨_, _, hscan, ?_, hend⟩
  simpa using hbefore

theorem exists_nth_eq {source : Bytes} {token : Token} (hmem : token ∈ scan source) :
    ∃ k, nth source k = token := by
  obtain ⟨count, -, -, hscan⟩ := exists_scan_eq_map source
  rw [hscan, ← List.map_singleton (f := nth source), ← List.map_append] at hmem
  obtain ⟨k, -, heq⟩ := List.mem_map.mp hmem
  exact ⟨k, heq⟩

/-- A token of the scan is spelled by runes of the text, and stands where these begin. -/
theorem exists_isSpelled {source : Bytes} {token : Token} (hmem : token ∈ scan source)
    (hne : token.lexeme ≠ .endOfInput) :
    ∃ passed spelling rest, Rune.list source = passed ++ spelling ++ rest ∧
      IsSpelled token (Place.start.passAll passed).ahead spelling := by
  obtain ⟨k, rfl⟩ := exists_nth_eq hmem
  obtain ⟨passed, hsource, hplace⟩ := within_after source k
  obtain ⟨gap, spelling, rest, hahead, -, -, hspelled, -⟩ := exists_of_next_ne hne
  refine ⟨passed ++ gap, spelling, rest, ?_, ?_⟩
  · rw [hsource, hahead]
    simp only [List.append_assoc]
  · rw [Place.passAll_append, ← hplace]
    exact hspelled

theorem pos_eq_ofOffset {source : Bytes} {token : Token} (hmem : token ∈ scan source)
    (hend : token.lexeme ≠ .endOfInput) : token.pos = .ofOffset source token.pos.offset := by
  obtain ⟨k, rfl⟩ := exists_nth_eq hmem
  exact ((within_after source k).tile hend).pos_eq

/-- The text of a literal or a mark is what stands in the source where the token does. -/
theorem text_eq_extract {source : Bytes} {token : Token} (hmem : token ∈ scan source)
    (hend : token.lexeme ≠ .endOfInput) (hfault : token.lexeme ≠ .fault) :
    token.text = source.extract token.pos.offset token.stop.offset := by
  obtain ⟨k, rfl⟩ := exists_nth_eq hmem
  have htile : Tile source (taken source k) (nth source k) (taken source (k + 1)) :=
    (within_after source k).tile hend
  rw [htile.offset_stop hfault, htile.text_eq, messageOf_eq_nil hfault, List.nil_append]

/-- No token begins behind the end of its text. -/
theorem offset_le_length {source : Bytes} {token : Token} (hmem : token ∈ scan source) :
    token.pos.offset ≤ source.length := by
  obtain ⟨k, rfl⟩ := exists_nth_eq hmem
  by_cases hend : (nth source k).lexeme = .endOfInput
  · rw [offset_nth_of_eq source hend]
  · have htile := (within_after source k).tile hend
    exact htile.offset_lt.le.trans htile.last_le

/-- After finitely many tokens of a text comes its end, again and again, and those tokens with
one end behind them are the tokens of the scan.  Each of them is the next piece of the text,
at a true position and behind layout only; so their offsets increase.  What no token takes is
what a text may end with. -/
theorem scan_tiles (source : Bytes) :
    ∃ count, (∀ k, (nth source k).lexeme = .endOfInput ↔ count ≤ k) ∧
      scan source = (List.range (count + 1)).map (nth source) ∧
      taken source 0 = 0 ∧
      (∀ k < count, Tile source (taken source k) (nth source k) (taken source (k + 1))) ∧
      (∀ j k, j < k → k < count → (nth source j).pos.offset < (nth source k).pos.offset) ∧
      IsTrailing (Rune.list (source.drop (taken source count))) := by
  obtain ⟨count, hbefore, hend, hscan⟩ := exists_scan_eq_map source
  have htile (k : Nat) (hk : k < count) :
      Tile source (taken source k) (nth source k) (taken source (k + 1)) :=
    (within_after source k).tile (hbefore k hk)
  refine ⟨count, fun k => ⟨?_, fun hle => end_of_le source hle hend⟩, ?_, rfl, htile, ?_,
    (within_after source count).isTrailing hend⟩
  · intro hk
    by_contra hlt
    exact hbefore k (Nat.lt_of_not_le hlt) hk
  · rw [hscan, List.range_succ, List.map_append]
    rfl
  · intro j k hjk hk
    calc (nth source j).pos.offset
        < taken source (j + 1) := (htile j (hjk.trans hk)).offset_lt
      _ ≤ taken source k := taken_mono source hjk
      _ ≤ (nth source k).pos.offset := (htile k hk).first_le

end Token

end BitLang
