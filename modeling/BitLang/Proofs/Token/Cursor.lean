/-
# Tokens one at a time

A scan of a whole text hands out all tokens at once.  A cursor hands them out one at a time:
it stands between two tokens, and asked for the next one it reads on until a token is
complete or the text ends.  A word or a number is complete only when a rune follows that is
no part of it; the cursor then stays before that rune, and the scan starts over with it.

Both ways of reading give the same tokens.  What one request reads is layout, then the
spelling of the token; or, where there is no further token, whatever the text may end with.
-/

import BitLang.Proofs.Expr.Literals
import BitLang.Proofs.Position
import BitLang.Proofs.Token.Layout

namespace BitLang

namespace Scanner

/-- The rune ends the token that the scan is in the middle of, and is no part of it. -/
def Mode.stopsAt : Mode → Rune → Bool
  | word _ false _ content, rune => !content.isEmpty && rune.isSeparator
  | number _ _, rune => !rune.isDigit
  | _, _ => false

end Scanner

/-- A scan that stands between two tokens: how far it has come, and the runes ahead. -/
structure Cursor where
  place : Place
  ahead : List Rune

namespace Cursor

open Scanner

/-- The cursor at the start of a text. -/
def start (source : Bytes) : Cursor := ⟨.start, Rune.list source⟩

/-- The next token of a scan in the middle of something, if there is one, and the cursor
behind it. -/
def readIn : Mode → Place → List Rune → Option Token × Cursor
  | mode, place, [] => (mode.finish.head?, ⟨place, []⟩)
  | mode, place, rune :: rest =>
    if mode.stopsAt rune then (mode.finish.head?, ⟨place, rune :: rest⟩)
    else match step place.ahead mode rune with
      | (token :: _, _) => (some token, ⟨place.pass rune, rest⟩)
      | ([], next) => readIn next (place.pass rune) rest

/-- The token that stands for the end of the text. -/
def endToken (c : Cursor) : Token := ⟨.endOfInput, [], c.place.atEnd⟩

/-- The next token, or else the end of the text, and the cursor behind it. -/
def next (c : Cursor) : Token × Cursor :=
  match readIn .layout c.place c.ahead with
  | (some token, after) => (token, after)
  | (none, after) => (after.endToken, after)

section Equations

variable {mode after : Mode} {place : Place} {rune : Rune} {rest : List Rune} {token : Token}

theorem readIn_stop (h : mode.stopsAt rune = true) (hfinish : mode.finish = [token]) :
    readIn mode place (rune :: rest) = (some token, ⟨place, rune :: rest⟩) := by
  rw [readIn, if_pos h, hfinish]
  rfl

theorem readIn_skip (h : mode.stopsAt rune = false)
    (hstep : step place.ahead mode rune = ([], after)) :
    readIn mode place (rune :: rest) = readIn after (place.pass rune) rest := by
  rw [readIn, if_neg (Bool.not_eq_true _ ▸ h), hstep]

theorem readIn_complete (h : mode.stopsAt rune = false)
    (hstep : step place.ahead mode rune = ([token], after)) :
    readIn mode place (rune :: rest) = (some token, ⟨place.pass rune, rest⟩) := by
  rw [readIn, if_neg (Bool.not_eq_true _ ▸ h), hstep]

end Equations

end Cursor

namespace Scanner

/-! ## One rune -/

theorem not_isSeparator_of_backslash {rune : Rune} (h : rune.is '\\' = true) :
    rune.isSeparator = false := by
  rw [Rune.is, beq_iff_eq] at h
  simp [Rune.isSeparator, Rune.isSpace, Quote.opening?, Lexeme.mark?, Rune.is, h, Quote.delimiter]

theorem step_space {rune : Rune} (h : rune.isSpace = true) (pos : Position) :
    step pos .layout rune = ([], .layout) := if_pos h

theorem step_hash {rune : Rune} (h : rune.is '#' = true) (pos : Position) :
    step pos .layout rune = ([], .comment false) := by
  have hspace : rune.isSpace = false := by
    rw [Rune.is, beq_iff_eq] at h
    simp [Rune.isSpace, Rune.is, h]
  simp [step, start, hspace, h]

theorem step_comment_hash {rune : Rune} (h : rune.is '#' = true) (pos : Position) :
    step pos (.comment false) rune = ([], .layout) := if_pos h

theorem step_comment_backslash {rune : Rune} (h : rune.is '\\' = true) (pos : Position) :
    step pos (.comment false) rune = ([], .comment true) := by
  have hhash : rune.is '#' = false := by
    rw [Rune.is, beq_iff_eq] at h
    simp [Rune.is, h]
  simp [step, hhash, h]

/-- A rune that ends a token starts over by itself. -/
theorem step_of_stopsAt {mode : Mode} {rune : Rune} (h : mode.stopsAt rune = true)
    (pos : Position) :
    (∃ token, mode.finish = [token]) ∧ step pos mode rune =
      (mode.finish ++ (step pos .layout rune).1, (step pos .layout rune).2) := by
  cases mode with
  | layout | comment | quoted => cases h
  | word first escaped raw content =>
      cases escaped with
      | true => cases h
      | false =>
          simp only [Mode.stopsAt, Bool.and_eq_true, Bool.not_eq_true'] at h
          have hslash : ¬ rune.is '\\' = true := fun hslash => by
            simp [not_isSeparator_of_backslash hslash] at h
          refine ⟨⟨_, if_neg (by simp [h.1])⟩, ?_⟩
          simp only [step, if_neg hslash, if_pos h.2]
  | number first raw =>
      have hdigit : ¬ rune.isDigit = true := by simpa [Mode.stopsAt] using h
      refine ⟨⟨_, rfl⟩, ?_⟩
      simp only [step, if_neg hdigit]

/-- A rune that starts over makes a token by itself, or none yet. -/
theorem start_cases (pos : Position) (rune : Rune) :
    (∃ next, start pos rune = ([], next)) ∨ ∃ token, start pos rune = ([token], .layout) := by
  unfold start
  split
  · exact .inl ⟨_, rfl⟩
  split
  · exact .inl ⟨_, rfl⟩
  split
  · exact .inr ⟨_, rfl⟩
  repeat' split
  all_goals exact .inl ⟨_, rfl⟩

/-- Any other rune completes one token at most, and then the scan stands between tokens. -/
theorem step_of_not_stopsAt {mode : Mode} {rune : Rune} (h : mode.stopsAt rune = false)
    (pos : Position) :
    (∃ next, step pos mode rune = ([], next)) ∨
      ∃ token, step pos mode rune = ([token], .layout) := by
  fun_cases step pos mode rune with
  | case1 => exact start_cases pos rune
  | case7 first raw content _ hseparator tokens next hstart =>
      have hfinish : Mode.finish (.word first false raw content) = [] := by
        simpa [Mode.stopsAt, hseparator, Mode.finish] using h
      rcases start_cases pos rune with ⟨next', h'⟩ | ⟨token, h'⟩ <;> cases hstart.symm.trans h'
      · exact .inl ⟨_, by rw [hfinish]; rfl⟩
      · exact .inr ⟨_, by rw [hfinish]; rfl⟩
  | case10 first raw hdigit tokens next hstart => simp [Mode.stopsAt, hdigit] at h
  | case13 => exact .inr ⟨_, rfl⟩
  | _ => exact .inl ⟨_, rfl⟩

/-! ## The tokens of a scan, one by one -/

/-- The tokens that a scan completes in the runes ahead of it, and the end of the text. -/
def tokensFrom : Mode → Place → List Rune → List Token
  | mode, place, [] => mode.finish ++ [Cursor.endToken ⟨place, []⟩]
  | mode, place, rune :: rest =>
    (step place.ahead mode rune).1 ++
      tokensFrom (step place.ahead mode rune).2 (place.pass rune) rest

theorem tokens_foldl_read (s : Scanner) (runes : List Rune) :
    (runes.foldl read s).tokens.toList ++ (runes.foldl read s).mode.finish ++
        [(runes.foldl read s).endToken] =
      s.tokens.toList ++ tokensFrom s.mode s.place runes := by
  induction runes generalizing s with
  | nil => exact List.append_assoc _ _ _
  | cons rune rest ih =>
      have hread := ih (s.read rune)
      rw [tokens_read, List.append_assoc (s.tokens.toList)] at hread
      exact hread

theorem scan_eq (source : Bytes) :
    Token.scan source = tokensFrom .layout .start (Rune.list source) :=
  tokens_foldl_read initial (Rune.list source)

/-- What a mode amounts to is one token or none. -/
theorem finish_eq (mode : Mode) : mode.finish = mode.finish.head?.toList := by
  cases mode with
  | word start escaped raw content =>
      rw [Mode.finish]
      cases content <;> rfl
  | _ => rfl

/-- The next token is the first of those that a scan completes, and the cursor behind it
finds the others. -/
theorem tokensFrom_eq (mode : Mode) (place : Place) (runes : List Rune) :
    tokensFrom mode place runes = match Cursor.readIn mode place runes with
      | (some token, c) => token :: tokensFrom .layout c.place c.ahead
      | (none, c) => [c.endToken] := by
  induction runes generalizing mode place with
  | nil =>
      rw [tokensFrom, Cursor.readIn, finish_eq]
      cases mode.finish.head? <;> rfl
  | cons rune rest ih =>
      by_cases hstop : mode.stopsAt rune = true
      · obtain ⟨⟨token, hfinish⟩, hstep⟩ := step_of_stopsAt hstop place.ahead
        rw [Cursor.readIn_stop hstop hfinish, tokensFrom, hstep, hfinish]
        rfl
      · rw [Bool.not_eq_true] at hstop
        rcases step_of_not_stopsAt hstop place.ahead with ⟨next, hstep⟩ | ⟨token, hstep⟩
        · rw [Cursor.readIn_skip hstop hstep, tokensFrom, hstep]
          exact ih next (place.pass rune)
        · rw [Cursor.readIn_complete hstop hstep, tokensFrom, hstep]
          rfl

/-! ## What a token is spelled by -/

/-- What comes before the spelling in the text of a token: the message of a fault. -/
def messageOf : Lexeme → Bytes
  | .fault => utf8 "number literal out of range: "
  | _ => []

theorem messageOf_eq_nil {lexeme : Lexeme} (h : lexeme ≠ .fault) : messageOf lexeme = [] := by
  cases lexeme with
  | fault => exact absurd rfl h
  | _ => rfl

/-- The token is no end of the text, stands at the given position and is spelled by the given
runes; in a fault, the message comes before them.  What is neither a literal nor a fault is a single
mark. -/
structure IsSpelled (token : Token) (pos : Position) (spelling : List Rune) : Prop where
  ne_endOfInput : token.lexeme ≠ .endOfInput
  pos_eq : token.pos = pos
  text_eq : token.text = messageOf token.lexeme ++ Rune.bytesOf spelling
  exists_mark : (∀ bits, token.lexeme ≠ .literal bits) → token.lexeme ≠ .fault →
    ∃ rune, Lexeme.mark? rune = some token.lexeme ∧ spelling = [rune]

/-- The scan is in the middle of a token that starts at the given position, and has read the
given runes of it, newest first.  As long as nothing of a word counts, it is a single
backslash. -/
inductive Mode.Within (start : Position) (raw : List Rune) : Mode → Prop
  | word {escaped : Bool} {content : List Rune}
      (h : content = [] → escaped = true ∧ ∃ slash, slash.is '\\' = true ∧ raw = [slash]) :
      Within start raw (.word start escaped raw content)
  | number : Within start raw (.number start raw)
  | quoted {quote : Quote} {escaped : Bool} {content : List Rune} :
      Within start raw (.quoted start quote escaped raw content)

theorem isSpelled_literal (start : Position) (raw : List Rune) (bits : BitSeq) :
    IsSpelled (literal start raw bits) start raw.reverse :=
  ⟨by simp [literal], rfl, rfl, fun hliteral => absurd rfl (hliteral bits)⟩

theorem isSpelled_number (start : Position) (raw : List Rune) :
    IsSpelled (number start (Rune.bytesOf raw.reverse)) start raw.reverse := by
  unfold number
  split
  · exact ⟨by simp, rfl, rfl, fun hliteral => absurd rfl (hliteral _)⟩
  · exact ⟨by simp, rfl, rfl, fun _ hfault => absurd rfl hfault⟩

theorem isSpelled_mark {rune : Rune} {lexeme : Lexeme} (h : Lexeme.mark? rune = some lexeme)
    (pos : Position) : IsSpelled ⟨lexeme, rune.bytes, pos⟩ pos [rune] := by
  have hlexeme : lexeme ≠ .endOfInput ∧ messageOf lexeme = [] := by
    unfold Lexeme.mark? at h
    repeat' split at h
    all_goals cases h
    all_goals exact ⟨by simp, rfl⟩
  exact ⟨hlexeme.1, rfl, by simp [hlexeme.2, Rune.bytesOf], fun _ _ => ⟨rune, h, rfl⟩⟩

section Within

variable {start : Position} {raw : List Rune} {mode : Mode}

/-- Where the text ends, the scan has a token or a single backslash. -/
theorem finish_within (h : mode.Within start raw) :
    (∃ token, mode.finish = [token] ∧ IsSpelled token start raw.reverse) ∨
      (mode.finish = [] ∧ ∃ slash, slash.is '\\' = true ∧ raw = [slash]) := by
  cases h with
  | @word escaped content h =>
      cases content with
      | nil => exact .inr ⟨rfl, (h rfl).2⟩
      | cons => exact .inl ⟨_, rfl, isSpelled_literal _ _ _⟩
  | number => exact .inl ⟨_, rfl, isSpelled_number _ _⟩
  | quoted => exact .inl ⟨_, rfl, isSpelled_literal _ _ _⟩

/-- A rune that does not end the token belongs to it, and may complete it. -/
theorem step_within (h : mode.Within start raw) {rune : Rune}
    (hstop : mode.stopsAt rune = false) (pos : Position) :
    (∃ next, step pos mode rune = ([], next) ∧ next.Within start (rune :: raw)) ∨
      ∃ token, step pos mode rune = ([token], .layout) ∧
        IsSpelled token start (rune :: raw).reverse := by
  have hnext {escaped : Bool} {content : List Rune} (hcontent : content ≠ []) :
      (Mode.word start escaped (rune :: raw) content).Within start (rune :: raw) :=
    .word fun hnil => absurd hnil hcontent
  cases h with
  | @word escaped content h =>
      cases escaped with
      | true => exact .inl ⟨_, rfl, hnext (List.cons_ne_nil _ _)⟩
      | false =>
          have hcontent : content ≠ [] := fun hnil => nomatch (h hnil).1
          by_cases hslash : rune.is '\\' = true
          · exact .inl ⟨_, if_pos hslash, hnext hcontent⟩
          · have hseparator : ¬ rune.isSeparator = true := by
              simpa [Mode.stopsAt, hcontent] using hstop
            refine .inl ⟨.word start false (rune :: raw) (rune :: content), ?_, hnext (by simp)⟩
            simp only [step, if_neg hslash, if_neg hseparator]
  | number =>
      exact .inl ⟨_, if_pos (by simpa [Mode.stopsAt] using hstop), .number⟩
  | @quoted quote escaped content =>
      cases escaped with
      | true => exact .inl ⟨_, rfl, .quoted⟩
      | false =>
          by_cases hslash : rune.is '\\' = true
          · exact .inl ⟨_, if_pos hslash, .quoted⟩
          by_cases hdelimiter : rune.is quote.delimiter = true
          · have hstep : step pos (.quoted start quote false raw content) rune =
                ([literal start (rune :: raw)
                  (quote.denote (Rune.bytesOf content.reverse))], .layout) := by
              simp only [step, if_neg hslash, if_pos hdelimiter]
              rfl
            exact .inr ⟨_, hstep, isSpelled_literal _ _ _⟩
          · refine .inl ⟨.quoted start quote false (rune :: raw) (rune :: content), ?_, .quoted⟩
            simp only [step, if_neg hslash, if_neg hdelimiter]

end Within

/-- A rune that starts a token is the whole of it, or leads into the middle of it. -/
theorem step_of_startsToken {rune : Rune} (h : StartsToken rune) (pos : Position) :
    (∃ next, step pos .layout rune = ([], next) ∧ next.Within pos [rune]) ∨
      ∃ token, step pos .layout rune = ([token], .layout) ∧ IsSpelled token pos [rune] := by
  change (∃ next, start pos rune = ([], next) ∧ _) ∨
    ∃ token, start pos rune = ([token], .layout) ∧ _
  unfold start
  rw [if_neg (by simp [h.1]), if_neg (by simp [h.2])]
  split
  · next lexeme hmark => exact .inr ⟨_, rfl, isSpelled_mark hmark pos⟩
  split
  · exact .inl ⟨_, rfl, .quoted⟩
  split
  · exact .inl ⟨_, rfl, .number⟩
  split
  · next hslash => exact .inl ⟨_, rfl, .word fun _ => ⟨rfl, rune, hslash, rfl⟩⟩
  · exact .inl ⟨_, rfl, .word fun hnil => nomatch hnil⟩

end Scanner

namespace Cursor

open Scanner

/-! ## What one request reads -/

theorem readIn_comment_append {body : List Rune} (h : InComment body) (place : Place)
    (rest : List Rune) :
    readIn (.comment false) place (body ++ rest) =
      readIn (.comment false) (place.passAll body) rest := by
  induction h generalizing place with
  | nil => rfl
  | @plain rune body hhash hslash _ ih =>
      have hstep : step place.ahead (.comment false) rune = ([], .comment false) := by
        simp [step, hhash, hslash]
      rw [List.cons_append, readIn_skip rfl hstep]
      exact ih (place.pass rune)
  | @escaped slash rune body hslash _ ih =>
      rw [List.cons_append, readIn_skip rfl (step_comment_backslash hslash _), List.cons_append,
        readIn_skip rfl rfl]
      exact ih ((place.pass slash).pass rune)

/-- Layout is passed over. -/
theorem readIn_layout_append {gap : List Rune} (h : IsLayout gap) (place : Place)
    (rest : List Rune) :
    readIn .layout place (gap ++ rest) = readIn .layout (place.passAll gap) rest := by
  induction h generalizing place with
  | nil => rfl
  | @space rune gap hspace _ ih =>
      rw [List.cons_append, readIn_skip rfl (step_space hspace _)]
      exact ih (place.pass rune)
  | @comment opening closing body gap hopening hbody hclosing _ ih =>
      rw [List.cons_append, List.append_assoc, List.cons_append,
        readIn_skip rfl (step_hash hopening _), readIn_comment_append hbody,
        readIn_skip rfl (step_comment_hash hclosing _), ih, Place.passAll_cons, Place.passAll_append]
      rfl

theorem readIn_openComment {body : List Rune} (h : InOpenComment body) (place : Place) :
    readIn (.comment false) place body = (none, ⟨place.passAll body, []⟩) := by
  cases h with
  | whole h =>
      rw [← List.append_nil body, readIn_comment_append h, List.append_nil]
      rfl
  | @cut body slash h hslash =>
      rw [readIn_comment_append h, readIn_skip rfl (step_comment_backslash hslash _),
        Place.passAll_append]
      rfl

/-- In the middle of a token, the rest of it is read; only a backslash with nothing to
escape is dropped. -/
theorem readIn_within {start : Position} {raw : List Rune} {mode : Mode}
    (h : mode.Within start raw) (hraw : raw ≠ []) (place : Place) (runes : List Rune) :
    (∃ more rest token, runes = more ++ rest ∧
      readIn mode place runes = (some token, ⟨place.passAll more, rest⟩) ∧
      IsSpelled token start (raw.reverse ++ more)) ∨
    (readIn mode place runes = (none, ⟨place, []⟩) ∧ runes = [] ∧
      ∃ slash, slash.is '\\' = true ∧ raw = [slash]) := by
  induction runes generalizing raw mode place with
  | nil =>
      rcases finish_within h with ⟨token, hfinish, hspelled⟩ | ⟨hfinish, hslash⟩
      · refine .inl ⟨[], [], token, rfl, ?_, by rwa [List.append_nil]⟩
        rw [readIn, hfinish]
        rfl
      · refine .inr ⟨?_, rfl, hslash⟩
        rw [readIn, hfinish]
        rfl
  | cons rune rest ih =>
      by_cases hstop : mode.stopsAt rune = true
      · obtain ⟨⟨token, hfinish⟩, -⟩ := step_of_stopsAt hstop place.ahead
        rcases finish_within h with ⟨token, hfinish, hspelled⟩ | ⟨hnil, -⟩
        · exact .inl ⟨[], rune :: rest, token, rfl, readIn_stop hstop hfinish,
            by rwa [List.append_nil]⟩
        · cases hnil.symm.trans hfinish
      · rw [Bool.not_eq_true] at hstop
        rcases step_within h hstop place.ahead with ⟨next, hstep, hnext⟩ | ⟨token, hstep, hspelled⟩
        · rw [readIn_skip hstop hstep]
          rcases ih hnext (List.cons_ne_nil rune raw) (place.pass rune) with
            ⟨more, rest, token, rfl, hread, hspelled⟩ | ⟨-, -, slash, -, hslash⟩
          · refine .inl ⟨rune :: more, rest, token, rfl, hread, ?_⟩
            simpa using hspelled
          · exact absurd (List.cons.inj hslash).2 hraw
        · exact .inl ⟨[rune], rest, token, rfl, readIn_complete hstop hstep,
            by simpa using hspelled⟩

/-- What one request finds ahead of the cursor: layout and the spelling of a token, or what a
text may end with. -/
inductive Finds (c : Cursor) : Option Token × Cursor → Prop
  | token {token : Token} {gap spelling rest : List Rune}
      (hahead : c.ahead = gap ++ spelling ++ rest) (hgap : IsLayout gap) (hspelling : spelling ≠ [])
      (hspelled : IsSpelled token (c.place.passAll gap).ahead spelling) :
      Finds c (some token, ⟨c.place.passAll (gap ++ spelling), rest⟩)
  | ended (hahead : IsTrailing c.ahead) : Finds c (none, ⟨c.place.passAll c.ahead, []⟩)

theorem finds_readIn (c : Cursor) : c.Finds (readIn .layout c.place c.ahead) := by
  obtain ⟨gap, rest, hahead, hgap, hrest⟩ := exists_layout c.ahead
  have hread := readIn_layout_append hgap c.place rest
  rw [← hahead] at hread
  have hended (htrailing : IsTrailing c.ahead)
      (hend : readIn .layout c.place c.ahead = (none, ⟨(c.place.passAll gap).passAll rest, []⟩)) :
      c.Finds (readIn .layout c.place c.ahead) := by
    rw [hend, ← Place.passAll_append, ← hahead]
    exact .ended htrailing
  cases hrest with
  | nil => exact hended (by rw [hahead, List.append_nil]; exact .layout hgap) hread
  | @comment opening body hopening hbody =>
      rw [readIn_skip rfl (step_hash hopening _), readIn_openComment hbody] at hread
      exact hended (hahead ▸ .comment hgap hopening hbody) hread
  | @token rune rest hstarts =>
      rcases step_of_startsToken hstarts (c.place.passAll gap).ahead with
        ⟨after, hstep, hwithin⟩ | ⟨token, hstep, hspelled⟩
      · rw [readIn_skip rfl hstep] at hread
        rcases readIn_within hwithin (List.cons_ne_nil _ _) _ rest with
          ⟨more, rest, token, rfl, hmore, hspelled⟩ | ⟨hmore, rfl, slash, hslash, hraw⟩
        · rw [hread, hmore, ← Place.passAll_cons, ← Place.passAll_append]
          exact .token (by rw [hahead]; simp) hgap (List.cons_ne_nil _ _) hspelled
        · cases hraw
          exact hended (hahead ▸ .backslash hgap hslash) (hread.trans hmore)
      · have hplace : (c.place.passAll gap).pass rune = c.place.passAll (gap ++ [rune]) := by
          rw [Place.passAll_append]
          rfl
        rw [hread, readIn_complete rfl hstep, hplace]
        exact .token (by rw [hahead]; simp) hgap (List.cons_ne_nil _ _) hspelled

/-- A token that is handed out is spelled behind some layout, and the cursor moves behind it. -/
theorem exists_of_next_ne {c : Cursor} (h : c.next.1.lexeme ≠ .endOfInput) :
    ∃ gap spelling rest, c.ahead = gap ++ spelling ++ rest ∧ IsLayout gap ∧ spelling ≠ [] ∧
      IsSpelled c.next.1 (c.place.passAll gap).ahead spelling ∧
      c.next.2 = ⟨c.place.passAll (gap ++ spelling), rest⟩ := by
  have hfinds := c.finds_readIn
  rw [next] at h ⊢
  cases hread : readIn .layout c.place c.ahead with
  | mk found after =>
      rw [hread] at hfinds h
      cases hfinds with
      | token hahead hgap hspelling hspelled =>
          exact ⟨_, _, _, hahead, hgap, hspelling, hspelled, rfl⟩
      | ended => exact absurd rfl h

/-- At the end of the text the cursor moves behind what is left. -/
theorem next_of_eq {c : Cursor} (h : c.next.1.lexeme = .endOfInput) :
    IsTrailing c.ahead ∧ c.next.2 = ⟨c.place.passAll c.ahead, []⟩ := by
  have hfinds := c.finds_readIn
  rw [next] at h ⊢
  cases hread : readIn .layout c.place c.ahead with
  | mk found after =>
      rw [hread] at hfinds h
      cases hfinds with
      | token _ _ _ hspelled => exact absurd h hspelled.ne_endOfInput
      | ended hahead => exact ⟨hahead, rfl⟩

/-- The end of the text stands behind what is left. -/
theorem fst_next_of_eq {c : Cursor} (h : c.next.1.lexeme = .endOfInput) :
    c.next.1 = ⟨.endOfInput, [], (c.place.passAll c.ahead).atEnd⟩ := by
  have hfinds := c.finds_readIn
  rw [next] at h ⊢
  cases hread : readIn .layout c.place c.ahead with
  | mk found after =>
      rw [hread] at hfinds h
      cases hfinds with
      | token _ _ _ hspelled => exact absurd h hspelled.ne_endOfInput
      | ended => rfl

/-- The tokens ahead are what is handed out next and then the tokens ahead of the cursor
behind it. -/
theorem tokensFrom_next (c : Cursor) :
    tokensFrom .layout c.place c.ahead =
      if c.next.1.lexeme = .endOfInput then [c.next.1]
      else c.next.1 :: tokensFrom .layout c.next.2.place c.next.2.ahead := by
  have hfinds := c.finds_readIn
  rw [tokensFrom_eq, next]
  cases hread : readIn .layout c.place c.ahead with
  | mk found after =>
      rw [hread] at hfinds
      cases hfinds with
      | token _ _ _ hspelled => exact (if_neg hspelled.ne_endOfInput).symm
      | ended => rfl

end Cursor

end BitLang
