/-
# Token ends

A tree takes every token to end on the line where it starts, with a column for each of its runes.
The range of a token opens a new line at every newline, as the scan does.  So the two ends are the
same for a token without a newline in it, and for a token with one they are not: the end in the
tree has the offset where the token ends and the line where it starts
(`Token.line_ofOffset_stop`).

Scopes and sets end with a mark, and no mark is a newline.  So only a literal can stand in a tree
with an end that is not true, and it does so if and only if it runs over several lines.
-/

import BitLang.Proofs.Editor.TokenRange
import BitLang.Proofs.Expr.Standing

namespace BitLang

open Scanner Editor

namespace Token

section Scan

variable {source : Bytes} {token : Token} (hmem : token ∈ scan source)
  (hend : token.lexeme ≠ .endOfInput) (hfault : token.lexeme ≠ .fault)

include hmem hend hfault

/-- A mark holds no newline. -/
theorem not_mem_text_of_mark (hliteral : ∀ bits, token.lexeme ≠ .literal bits) :
    0x0A ∉ token.text := by
  obtain ⟨passed, spelling, rest, hlist, hspelled⟩ := exists_isSpelled hmem hend
  obtain ⟨rune, hmark, rfl⟩ := hspelled.exists_mark hliteral hfault
  have hproper : rune.Proper := Rune.proper_of_mem_list source rune (by simp [hlist])
  rw [hspelled.text_eq, messageOf_eq_nil hfault]
  rcases hproper.newline_cases with ⟨his, -⟩ | ⟨-, hbytes⟩
  · rw [Rune.is, beq_iff_eq] at his
    simp [Lexeme.mark?, Rune.is, his] at hmark
  · simpa [Rune.bytesOf] using hbytes

/-- Where a literal or a mark starts and where the text before its end says that it ends, as places
of one scan. -/
theorem exists_passAll :
    ∃ (place : Place) (spelling : List Rune), (∀ rune ∈ spelling, rune.Proper) ∧
      token.text = Rune.bytesOf spelling ∧ runeCount token.text = spelling.length ∧
      token.pos = place.ahead ∧
      Position.ofOffset source token.stop.offset = (place.passAll spelling).ahead := by
  obtain ⟨passed, spelling, rest, hlist, htext, hpos, hstop, -⟩ :=
    exists_tokenRange_eq hmem hend hfault
  refine ⟨Place.start.passAll passed, spelling, fun rune hrune => ?_, htext, ?_, hpos, ?_⟩
  · exact Rune.proper_of_mem_list source rune (by simp [hlist, hrune])
  · rw [runeCount, htext, Rune.list_bytesOf ⟨passed, rest, hlist.symm⟩]
  · rw [hstop, Place.passAll_append]

/-- The true end of a literal or a mark is as many lines further down as its text has newlines. -/
theorem line_ofOffset_stop :
    (Position.ofOffset source token.stop.offset).line =
      token.stop.line + token.text.count 0x0A := by
  obtain ⟨place, spelling, hproper, htext, -, hpos, hstop⟩ := exists_passAll hmem hend hfault
  have hline : token.stop.line = place.line := congrArg Position.line hpos
  rw [hstop, hline, htext]
  exact place.line_passAll hproper

/-- A literal or a mark ends where the text before its end says if and only if it holds no
newline. -/
theorem stop_eq_ofOffset_iff :
    token.stop = .ofOffset source token.stop.offset ↔ 0x0A ∉ token.text := by
  constructor
  · intro heq
    have hline := line_ofOffset_stop hmem hend hfault
    rw [← heq] at hline
    exact List.count_eq_zero.mp (by omega)
  · intro hnewline
    obtain ⟨place, spelling, hproper, htext, hcount, hpos, hstop⟩ :=
      exists_passAll hmem hend hfault
    rw [hstop, place.passAll_of_not_mem hproper (htext ▸ hnewline), stop, hpos, hcount, htext,
      Place.ahead, Place.ahead, Nat.add_right_comm]

theorem stop_of_mark (hliteral : ∀ bits, token.lexeme ≠ .literal bits) :
    token.stop = .ofOffset source token.stop.offset :=
  (stop_eq_ofOffset_iff hmem hend hfault).mpr (not_mem_text_of_mark hmem hend hfault hliteral)

end Scan

end Token

/-! ## Ends in a tree -/

namespace Expr

variable {source : Bytes}

/-- A scope or a set ends at a true position, and a literal does if and only if it does not run over
several lines. -/
def EndsTrue (source : Bytes) : Expr → Prop
  | literal span _ => span.stop = .ofOffset source span.stop.offset ↔
      0x0A ∉ source.extract span.start.offset span.stop.offset
  | scope span | set span _ => span.stop = .ofOffset source span.stop.offset
  | _ => True

theorem Stands.endsTrue {e : Expr} {first last : Nat}
    (h : e.Stands (Token.scan source) first last) : EndsTrue source e := by
  cases h with
  | @literal token _ _ _ hmem hlexeme =>
      have hend : token.lexeme ≠ .endOfInput := by simp [hlexeme]
      have hfault : token.lexeme ≠ .fault := by simp [hlexeme]
      have hiff := Token.stop_eq_ofOffset_iff hmem hend hfault
      rwa [Token.text_eq_extract hmem hend hfault] at hiff
  | scope hmem hlexeme =>
      exact Token.stop_of_mark hmem (by simp [hlexeme]) (by simp [hlexeme]) (by simp [hlexeme])
  | set _ _ hmem hlexeme =>
      exact Token.stop_of_mark hmem (by simp [hlexeme]) (by simp [hlexeme]) (by simp [hlexeme])
  | absent | function | combine => trivial

/-- A key that was made up ends where the token stands with which its value begins. -/
theorem Stands.endsTrue_key {value : Expr} {first last : Nat} (hpresent : value.isAbsent = false)
    (h : value.Stands (Token.scan source) first last) (bits : BitSeq) :
    EndsTrue source (.literal ⟨value.pos, value.pos⟩ bits) := by
  obtain ⟨span, hspan, ⟨token, hmem, hlexeme, hstart, -⟩, -⟩ := h.exists_span hpresent
  rw [pos_eq_start hspan, hstart]
  exact iff_of_true (Token.pos_eq_ofOffset hmem hlexeme) (by simp)

end Expr

/-! ## Ends in an editor -/

namespace Editor

/-- Two positions that are the same in an editor are on the same line, unless 32 bits are too few
for the lines between them. -/
theorem line_eq_of_ofPosition_eq {pos pos' : Position} (hpos : 0 < pos.line)
    (hle : pos.line ≤ pos'.line) (hlt : pos'.line < pos.line + 0x100000000)
    (h : Location.ofPosition pos = .ofPosition pos') : pos.line = pos'.line := by
  have hline := congrArg Location.line h
  rw [Location.ofPosition, Location.ofPosition, if_neg (by omega), if_neg (by omega)] at hline
  simp only [pred32] at hline
  omega

theorem ofPosition_stop {source : Bytes} {token : Token} (hmem : token ∈ Token.scan source)
    (hend : token.lexeme ≠ .endOfInput) (hfault : token.lexeme ≠ .fault)
    (hnewline : 0x0A ∉ token.text) : .ofPosition token.stop = (tokenRange token).stop := by
  rw [stop_tokenRange hmem hend hfault]
  exact congrArg _ ((Token.stop_eq_ofOffset_iff hmem hend hfault).mpr hnewline)

theorem not_mem_of_ofPosition_stop {source : Bytes} {token : Token}
    (hmem : token ∈ Token.scan source) (hend : token.lexeme ≠ .endOfInput)
    (hfault : token.lexeme ≠ .fault) (hlines : source.count 0x0A < 0x100000000)
    (h : .ofPosition token.stop = (tokenRange token).stop) : 0x0A ∉ token.text := by
  rw [stop_tokenRange hmem hend hfault] at h
  have hfirst : token.stop.line = 1 + (source.take token.pos.offset).count 0x0A :=
    congrArg Position.line (Token.pos_eq_ofOffset hmem hend)
  have hlast : (Position.ofOffset source token.stop.offset).line ≤ 1 + source.count 0x0A :=
    Nat.add_le_add_left ((List.take_sublist _ _).count_le _) 1
  have hline := Token.line_ofOffset_stop hmem hend hfault
  -- both ends are on lines of the text, and there are fewer lines than locations can tell apart
  have heq := line_eq_of_ofPosition_eq (by omega) (by omega) (by omega) h
  exact List.count_eq_zero.mp (by omega)

/-- The end of a literal or a mark in a tree is the end of its range if its text holds no newline,
and if lines can be counted in 32 bits only then.  In a tree that was read, scopes and sets have the
line and the column of their ends, and so have just those literals that are on one line. -/
theorem ofPosition_stop_eq_iff (source : Bytes) :
    (∀ token ∈ Token.scan source, token.lexeme ≠ .endOfInput → token.lexeme ≠ .fault →
      (0x0A ∉ token.text → .ofPosition token.stop = (tokenRange token).stop) ∧
      (source.count 0x0A < 0x100000000 →
        (.ofPosition token.stop = (tokenRange token).stop ↔ 0x0A ∉ token.text))) ∧
    ∀ e, Expr.parse source = .ok e → e.All (Expr.EndsTrue source) := by
  refine ⟨fun token hmem hend hfault => ?_, fun e h => ?_⟩
  · have hstop := ofPosition_stop hmem hend hfault
    exact ⟨hstop, fun hlines =>
      ⟨not_mem_of_ofPosition_stop hmem hend hfault hlines, hstop⟩⟩
  · exact Expr.all_of_parse h ⟨fun _ hstands _ => hstands.endsTrue,
      fun _ hpresent hvalue _ => hvalue.endsTrue_key hpresent _⟩

/-- A set of one text of two lines. -/
def enclosed : Bytes := utf8 "\x7b\"a\nb\"\x7d"

/-- The closing brace of `enclosed`. -/
def enclosedBrace : Token := ⟨.closeBrace, utf8 "\x7d", ⟨6, 2, 3⟩⟩

theorem ofPosition_stop_enclosedBrace :
    enclosedBrace ∈ Token.scan enclosed ∧
      Location.ofPosition enclosedBrace.stop = (tokenRange enclosedBrace).stop ∧
      ∃ e, Expr.parse enclosed = .ok e ∧ e.All (Expr.EndsTrue enclosed) := by
  have hmem : enclosedBrace ∈ Token.scan enclosed := by decide
  obtain ⟨htokens, htrees⟩ := ofPosition_stop_eq_iff enclosed
  have hparse : ∃ e, Expr.parse enclosed = .ok e := ⟨_, rfl⟩
  obtain ⟨e, he⟩ := hparse
  exact ⟨hmem, (htokens _ hmem (by decide) (by decide)).1 (by decide), e, he, htrees e he⟩

/-- A text of two lines. -/
def twoLines : Bytes := utf8 "\"a\nb\""

/-- The one literal of `twoLines`. -/
def twoLinesLiteral : Token := ⟨.literal ⟨24, utf8 "a\nb"⟩, twoLines, ⟨0, 1, 1⟩⟩

/-- The literal ends on the second line, and in the tree it ends behind the first. -/
theorem ofPosition_stop_twoLines :
    twoLinesLiteral ∈ Token.scan twoLines ∧
      Location.ofPosition twoLinesLiteral.stop = ⟨0, 5⟩ ∧
      (tokenRange twoLinesLiteral).stop = ⟨1, 2⟩ ∧
      Expr.parse twoLines = .ok (.literal ⟨⟨0, 1, 1⟩, ⟨5, 1, 6⟩⟩ ⟨24, utf8 "a\nb"⟩) ∧
      Position.ofOffset twoLines 5 = ⟨5, 2, 3⟩ :=
  ⟨by decide, by decide, by decide, by rfl, by decide⟩

end Editor

end BitLang
