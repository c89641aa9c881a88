/-
# Layout

Between tokens stand white space and comments.  A comment ends at the first `#` that no
backslash escapes, so what it may hold is described two runes at a time where there is a
backslash.  Behind the last token a comment may be left open, and a single backslash with
nothing to escape may stand at the very end.

Every text starts with a longest stretch of layout.  What follows it is nothing, or starts a
token, or is a comment that is never closed.
-/

import BitLang.Proofs.Text.Spelling
import BitLang.Token.Scanner

namespace BitLang.Scanner

/-! ## Comments and gaps -/

/-- What may stand inside a comment: a `#` only right behind a backslash that escapes it. -/
inductive InComment : List Rune → Prop
  | nil : InComment []
  | plain {rune : Rune} {rest : List Rune} (hhash : rune.is '#' = false)
      (hslash : rune.is '\\' = false) (h : InComment rest) : InComment (rune :: rest)
  | escaped {slash rune : Rune} {rest : List Rune} (hslash : slash.is '\\' = true)
      (h : InComment rest) : InComment (slash :: rune :: rest)

/-- White space and closed comments. -/
inductive IsLayout : List Rune → Prop
  | nil : IsLayout []
  | space {rune : Rune} {rest : List Rune} (hspace : rune.isSpace = true) (h : IsLayout rest) :
      IsLayout (rune :: rest)
  | comment {opening closing : Rune} {body rest : List Rune} (hopening : opening.is '#' = true)
      (hbody : InComment body) (hclosing : closing.is '#' = true) (h : IsLayout rest) :
      IsLayout (opening :: (body ++ closing :: rest))

/-- What may stand inside a comment that is left open: the text may also end on a backslash
that has nothing to escape. -/
inductive InOpenComment : List Rune → Prop
  | whole {body : List Rune} (h : InComment body) : InOpenComment body
  | cut {body : List Rune} {slash : Rune} (h : InComment body) (hslash : slash.is '\\' = true) :
      InOpenComment (body ++ [slash])

/-- What may stand behind the last token: layout, and then nothing, a comment that is left
open, or a single backslash. -/
inductive IsTrailing : List Rune → Prop
  | layout {gap : List Rune} (h : IsLayout gap) : IsTrailing gap
  | comment {gap body : List Rune} {opening : Rune} (h : IsLayout gap)
      (hopening : opening.is '#' = true) (hbody : InOpenComment body) :
      IsTrailing (gap ++ opening :: body)
  | backslash {gap : List Rune} {slash : Rune} (h : IsLayout gap)
      (hslash : slash.is '\\' = true) : IsTrailing (gap ++ [slash])

/-- The rune neither is white space nor opens a comment. -/
def StartsToken (rune : Rune) : Prop := rune.isSpace = false ∧ rune.is '#' = false

/-! ## Where comments and gaps end -/

theorem InOpenComment.plain {rune : Rune} {rest : List Rune} (hhash : rune.is '#' = false)
    (hslash : rune.is '\\' = false) (h : InOpenComment rest) : InOpenComment (rune :: rest) := by
  cases h with
  | whole h => exact .whole (.plain hhash hslash h)
  | cut h hcut => exact .cut (.plain hhash hslash h) hcut

theorem InOpenComment.escaped {slash rune : Rune} {rest : List Rune}
    (hslash : slash.is '\\' = true) (h : InOpenComment rest) :
    InOpenComment (slash :: rune :: rest) := by
  cases h with
  | whole h => exact .whole (.escaped hslash h)
  | cut h hcut => exact .cut (.escaped hslash h) hcut

/-- A comment is closed somewhere, or open to the end of the text. -/
theorem exists_closing_or_open : (runes : List Rune) →
    (∃ body closing rest, runes = body ++ closing :: rest ∧ InComment body ∧
      closing.is '#' = true) ∨ InOpenComment runes
  | [] => .inr (.whole .nil)
  | rune :: rest => by
      by_cases hhash : rune.is '#' = true
      · exact .inl ⟨[], rune, rest, rfl, .nil, hhash⟩
      rw [Bool.not_eq_true] at hhash
      by_cases hslash : rune.is '\\' = true
      · match rest with
        | [] => exact .inr (.cut .nil hslash)
        | next :: rest =>
          rcases exists_closing_or_open rest with ⟨body, closing, rest, rfl, hbody, hclosing⟩ | h
          · exact .inl ⟨_, closing, rest, rfl, hbody.escaped hslash, hclosing⟩
          · exact .inr (h.escaped hslash)
      · rw [Bool.not_eq_true] at hslash
        rcases exists_closing_or_open rest with ⟨body, closing, rest, rfl, hbody, hclosing⟩ | h
        · exact .inl ⟨_, closing, rest, rfl, hbody.plain hhash hslash, hclosing⟩
        · exact .inr (h.plain hhash hslash)

/-- What follows the longest stretch of layout. -/
inductive FollowsLayout : List Rune → Prop
  | nil : FollowsLayout []
  | token {rune : Rune} {rest : List Rune} (h : StartsToken rune) : FollowsLayout (rune :: rest)
  | comment {opening : Rune} {body : List Rune} (hopening : opening.is '#' = true)
      (hbody : InOpenComment body) : FollowsLayout (opening :: body)

theorem exists_layout (runes : List Rune) :
    ∃ gap rest, runes = gap ++ rest ∧ IsLayout gap ∧ FollowsLayout rest := by
  -- a comment is skipped as a whole, so the induction is on the length
  induction hlength : runes.length using Nat.strongRecOn generalizing runes with
  | ind length ih =>
    subst hlength
    match runes with
    | [] => exact ⟨[], [], rfl, .nil, .nil⟩
    | rune :: runes =>
      by_cases hspace : rune.isSpace = true
      · obtain ⟨gap, rest, rfl, hgap, hrest⟩ := ih runes.length (by simp) runes rfl
        exact ⟨rune :: gap, rest, rfl, .space hspace hgap, hrest⟩
      by_cases hhash : rune.is '#' = true
      · rcases exists_closing_or_open runes with ⟨body, closing, more, rfl, hbody, hclosing⟩ | hopen
        · obtain ⟨gap, rest, rfl, hgap, hrest⟩ := ih more.length (by simp; omega) more rfl
          exact ⟨rune :: (body ++ closing :: gap), rest, by simp,
            .comment hhash hbody hclosing hgap, hrest⟩
        · exact ⟨[], _, rfl, .nil, .comment hhash hopen⟩
      · rw [Bool.not_eq_true] at hspace hhash
        exact ⟨[], _, rfl, .nil, .token ⟨hspace, hhash⟩⟩

/-! ## The bytes of a gap -/

theorem code_lt_of_isSpace {rune : Rune} (h : rune.isSpace = true) : rune.code < 0x80 := by
  simp only [Rune.isSpace, Rune.is, Bool.or_eq_true, beq_iff_eq] at h
  rcases h with ((h | h) | h) | h <;> rw [h] <;> decide

theorem code_lt_of_hash {rune : Rune} (h : rune.is '#' = true) : rune.code < 0x80 := by
  rw [Rune.is, beq_iff_eq] at h
  rw [h]
  decide

/-- Layout starts with white space or a comment. -/
theorem IsLayout.not_startsToken {rune : Rune} {rest : List Rune} (h : IsLayout (rune :: rest)) :
    rune.isSpace = true ∨ rune.is '#' = true := by
  cases h with
  | space hspace _ => exact .inl hspace
  | comment hopening _ _ _ => exact .inr hopening

theorem IsLayout.code_last_lt {runes : List Rune} (h : IsLayout runes) :
    ∀ rune ∈ runes.getLast?, rune.code < 0x80 := by
  induction h with
  | nil => exact fun _ hmem => nomatch hmem
  | @space rune rest hspace _ ih =>
      cases rest with
      | nil =>
          rintro _ ⟨⟩
          exact code_lt_of_isSpace hspace
      | cons next rest => exact ih
  | @comment opening closing body rest _ _ hclosing _ ih =>
      rw [← List.cons_append, List.getLast?_append]
      cases rest with
      | nil =>
          rintro _ ⟨⟩
          exact code_lt_of_hash hclosing
      | cons next rest => simpa using ih

section Bytes

variable {gap : Bytes} (h : IsLayout (Rune.list gap))
include h

theorem IsLayout.exists_cons (hne : gap ≠ []) :
    ∃ rune runes, Rune.list gap = rune :: runes ∧
      (rune.isSpace = true ∨ rune.is '#' = true) := by
  cases hrunes : Rune.list gap with
  | nil =>
      rw [← Rune.bytesOf_list gap, hrunes] at hne
      exact absurd rfl hne
  | cons rune runes => exact ⟨rune, runes, rfl, (hrunes ▸ h).not_startsToken⟩

/-- What stands before a gap is read as if the text ended there. -/
theorem IsLayout.startsAnew (hne : gap ≠ []) (more : Bytes) : Rune.StartsAnew (gap ++ more) := by
  obtain ⟨rune, runes, hrunes, hrune⟩ := h.exists_cons hne
  have hproper := Rune.proper_of_mem_list gap rune (by simp [hrunes])
  obtain ⟨byte, hbyte, rfl⟩ := hproper.exists_ascii (hrune.elim code_lt_of_isSpace code_lt_of_hash)
  rw [← Rune.bytesOf_list gap, hrunes]
  exact Rune.startsAnew_ascii hbyte _

/-- What stands behind a gap is read as if the text began there. -/
theorem IsLayout.last_ascii : ∀ byte ∈ gap.getLast?, byte < 0x80 := by
  rcases List.eq_nil_or_concat (Rune.list gap) with hrunes | ⟨runes, rune, hrunes⟩
  · rw [← Rune.bytesOf_list gap, hrunes]
    exact fun _ hmem => nomatch hmem
  · have hcode : rune.code < 0x80 := h.code_last_lt rune (by simp [hrunes])
    have hproper := Rune.proper_of_mem_list gap rune (by simp [hrunes])
    obtain ⟨byte, hbyte, rfl⟩ := hproper.exists_ascii hcode
    rw [← Rune.bytesOf_list gap, hrunes, List.concat_eq_append, Rune.bytesOf_append]
    simpa [Rune.bytesOf, Rune.ascii] using hbyte

/-- The runes of a text that starts with layout. -/
theorem IsLayout.list_append (back : Bytes) :
    Rune.list (gap ++ back) = Rune.list gap ++ Rune.list back :=
  Rune.list_append_of_ascii h.last_ascii back

/-- The runes of two texts with layout between them. -/
theorem IsLayout.list_between (hne : gap ≠ []) (front back : Bytes) :
    Rune.list (front ++ (gap ++ back)) = Rune.list front ++ (Rune.list gap ++ Rune.list back) := by
  rw [Rune.list_append front (h.startsAnew hne back), h.list_append]

end Bytes

end BitLang.Scanner
