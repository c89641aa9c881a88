/-
# Entries that more text completes

A text that is no expression is called incomplete when it ends inside a parenthesis or a
set.  This module proves the name right: such a text, and no other text that is rejected,
becomes an expression when a newline and some more text follow.

One direction closes the text.  A newline and one more rune lead the scan out of whatever it
is in the middle of, with literals at most, and closing marks do the rest.  In the other
direction the tokens of a text stay what they are when a newline follows, apart from a
literal at its end, which can stand anywhere.
-/

import BitLang.CommandLine.Console
import BitLang.Proofs.Expr.Unclosed
import BitLang.Proofs.Text.Rune

namespace BitLang

/-! ## Scans -/

/-- The byte that closes what the bracket opens. -/
def Bracket.closing : Bracket → UInt8
  | paren => 0x29
  | brace => 0x7D

namespace Scanner

/-- The rune that ends a line. -/
def newline : Rune := .ascii 0x0A

/-- The scan of a text. -/
def after (source : Bytes) : Scanner := (Rune.list source).foldl read initial

/-- The tokens of a scan whose text ends here. -/
def ended (s : Scanner) : List Token := s.tokens.toList ++ s.mode.finish

/-- More runes add tokens and change none. -/
theorem exists_tokens_foldl_read (s : Scanner) (runes : List Rune) :
    ∃ more, (runes.foldl read s).tokens.toList = s.tokens.toList ++ more := by
  induction runes generalizing s with
  | nil => exact ⟨[], (List.append_nil _).symm⟩
  | cons rune rest ih =>
      obtain ⟨more, hmore⟩ := ih (s.read rune)
      rw [tokens_read, List.append_assoc] at hmore
      exact ⟨_, hmore⟩

/-- What is left of a text at its end is a literal, unless it is a number. -/
theorem isLiteral_of_mem_finish {mode : Mode} (hmode : ∀ start raw, mode ≠ .number start raw)
    {token : Token} (h : token ∈ mode.finish) : token.IsLiteral := by
  cases mode with
  | layout | comment => cases h
  | word start escaped raw content =>
      change token ∈ if content.isEmpty then [] else [_] at h
      split at h
      · cases h
      · rw [List.mem_singleton.mp h]
        exact ⟨_, rfl⟩
  | number start raw => exact absurd rfl (hmode start raw)
  | quoted start quote escaped raw content =>
      rw [List.mem_singleton.mp h]
      exact ⟨_, rfl⟩

/-- A number may be too large instead. -/
theorem lexeme_of_mem_finish {mode : Mode} {token : Token} (h : token ∈ mode.finish) :
    token.IsLiteral ∨ token.lexeme = .fault := by
  cases mode with
  | number start raw =>
      rw [List.mem_singleton.mp h, number]
      split
      · exact .inl ⟨_, rfl⟩
      · exact .inr rfl
  | _ => exact .inl (isLiteral_of_mem_finish (by simp) h)

/-- A newline ends a number and makes no other of it. -/
theorem finish_newline (pos : Position) (mode : Mode) :
    (∀ token ∈ mode.finish, token.IsLiteral) ∨ (step pos mode newline).1 = mode.finish := by
  cases mode with
  | number start raw => exact .inr rfl
  | _ => exact .inl fun _ => isLiteral_of_mem_finish (by simp)

/-- No token of a text is the end of the input. -/
theorem ended_ne_endOfInput (source : Bytes) :
    ∀ token ∈ (after source).ended, token.lexeme ≠ .endOfInput := by
  have hfinish (mode : Mode) : ∀ token ∈ mode.finish, token.lexeme ≠ .endOfInput := by
    intro token hmem hend
    rcases lexeme_of_mem_finish hmem with ⟨bits, h⟩ | h <;> cases h.symm.trans hend
  have hmark (rune : Rune) (lexeme : Lexeme) (pos : Position)
      (h : Lexeme.mark? rune = some lexeme) : lexeme ≠ .endOfInput := by
    rintro rfl
    unfold Lexeme.mark? at h
    repeat' split at h
    all_goals cases h
  exact List.forall_mem_append.mpr
    ⟨forall_foldl_read hfinish hmark _ (fun _ hmem => nomatch hmem), hfinish _⟩

/-! ### Closing what is left open -/

/-- After a newline, the byte that leads the scan out of what it is in the middle of. -/
def Mode.closing : Mode → UInt8
  | comment _ => 0x23
  | quoted _ quote _ _ _ => quote.delimiter.toUInt8
  | _ => 0x0A

theorem Mode.closing_lt (mode : Mode) : mode.closing < 0x80 := by
  unfold closing
  split
  · decide
  · next quote _ _ _ => cases quote <;> decide
  · decide

/-- The scan is between tokens then. -/
theorem step_closing (pos next : Position) (mode : Mode) :
    (step next (step pos mode newline).2 (.ascii mode.closing)).2 = .layout := by
  cases mode with
  | layout => rfl
  | comment escaped => cases escaped <;> rfl
  | word start escaped raw content => cases escaped <;> rfl
  | number start raw => rfl
  | quoted start quote escaped raw content => cases quote <;> cases escaped <;> rfl

/-- Besides what a mode amounts to, its closing adds literals only. -/
theorem isLiteral_of_mem_step_closing (pos next : Position) {mode : Mode}
    (h : ∀ token ∈ mode.finish, token.IsLiteral) :
    ∀ token ∈ (step pos mode newline).1 ++
      (step next (step pos mode newline).2 (.ascii mode.closing)).1, token.IsLiteral := by
  intro token hmem
  cases mode with
  | layout => cases hmem
  | comment escaped => cases escaped <;> cases hmem
  | word start escaped raw content =>
      cases escaped with
      | false =>
          change token ∈ (Mode.finish _ ++ []) ++ [] at hmem
          rw [List.append_nil, List.append_nil] at hmem
          exact h token hmem
      | true =>
          change token ∈ Mode.finish (.word start false _ _) ++ [] at hmem
          rw [List.append_nil] at hmem
          exact isLiteral_of_mem_finish (by simp) hmem
  | number start raw =>
      change token ∈ (Mode.finish _ ++ []) ++ [] at hmem
      rw [List.append_nil, List.append_nil] at hmem
      exact h token hmem
  | quoted start quote escaped raw content =>
      have hquoted : ∃ raw content,
          token ∈ Mode.finish (.quoted start quote false raw content) := by
        cases quote <;> cases escaped <;> exact ⟨_, _, hmem⟩
      obtain ⟨_, _, hmem⟩ := hquoted
      exact isLiteral_of_mem_finish (by simp) hmem

/-- A newline and one more byte complete what the scan is in the middle of, unless that is a
number too large. -/
theorem exists_closing (s : Scanner) (h : ∀ token ∈ s.mode.finish, token.IsLiteral) :
    ∃ literals, (∀ token ∈ literals, token.IsLiteral) ∧
      ((s.read newline).read (.ascii s.mode.closing)).tokens.toList =
        s.tokens.toList ++ literals ∧
      ((s.read newline).read (.ascii s.mode.closing)).mode = .layout := by
  refine ⟨_, isLiteral_of_mem_step_closing s.place.ahead (s.read newline).place.ahead h, ?_,
    step_closing _ _ _⟩
  rw [tokens_read, tokens_read, List.append_assoc]
  rfl

/-- Between tokens, the bytes that close brackets are the marks that do. -/
theorem exists_marks (s : Scanner) (hmode : s.mode = .layout) (brackets : List Bracket) :
    ∃ marks, marks.map Token.lexeme = brackets.map Bracket.close ∧
      ((brackets.map fun bracket => Rune.ascii bracket.closing).foldl read s).ended =
        s.tokens.toList ++ marks := by
  induction brackets generalizing s with
  | nil => exact ⟨[], rfl, by rw [ended, List.map_nil, List.foldl_nil, hmode]; rfl⟩
  | cons bracket rest ih =>
      have hstep : step s.place.ahead s.mode (.ascii bracket.closing) =
          ([⟨bracket.close, [bracket.closing], s.place.ahead⟩], .layout) := by
        rw [hmode]
        cases bracket <;> rfl
      obtain ⟨marks, hmarks, hended⟩ := ih (s.read (.ascii bracket.closing))
        (congrArg Prod.snd hstep)
      rw [tokens_read, hstep, List.append_assoc] at hended
      exact ⟨_, by rw [List.map_cons, ← hmarks]; rfl, hended⟩

end Scanner

/-! ## Texts -/

namespace Expr

open Scanner Unclosed

/-- What is said of a text depends on what its tokens leave open.  A fault leaves nothing to
continue. -/
theorem verdict_parse (source : Bytes) : Verdict (after source).ended (parse source) := by
  have hscan : Token.scan source = (after source).ended ++ [(after source).endToken] := rfl
  rw [parse, Token.tokenize, hscan]
  cases hfault : Token.firstFault? ((after source).ended ++ [(after source).endToken]) with
  | none => exact verdict_ofTokens (ended_ne_endOfInput source) rfl
  | some token =>
      have hlexeme : token.lexeme = .fault := by simpa using List.find?_some hfault
      have hmem : token ∈ (after source).ended := by
        rcases List.mem_append.mp (List.mem_of_find?_eq_some hfault) with h | h
        · exact h
        · cases (List.mem_singleton.mp h) ▸ hlexeme
      exact .wrong (run_eq_none_of_fault _ hmem hlexeme) rfl

/-- A newline keeps a text apart from what follows. -/
theorem after_append_newline (source more : Bytes) :
    after (source ++ 0x0A :: more) =
      (Rune.list more).foldl read ((after source).read newline) := by
  rw [after, Rune.list_append source (fun _ h => by cases h; rfl), List.foldl_append]
  rfl

/-- A text that can be continued at all can be continued by closing what is open. -/
theorem exists_closing_text {source : Bytes} {t : Unclosed}
    (h : initial.run (after source).ended = some t) :
    ∃ more u, initial.run (after (source ++ 0x0A :: more)).ended = some u ∧ u.around = [] := by
  obtain ⟨opened, hopen⟩ := exists_run_of_append h
  have hfinish : ∀ token ∈ (after source).mode.finish, token.IsLiteral := by
    intro token hmem
    refine (lexeme_of_mem_finish hmem).resolve_right fun hfault => ?_
    cases h.symm.trans (run_eq_none_of_fault _ (List.mem_append_right _ hmem) hfault)
  obtain ⟨literals, hliterals, htokens, hmode⟩ := (after source).exists_closing hfinish
  obtain ⟨marks, hmarks, hended⟩ := exists_marks _ hmode (opened.around.map Prod.fst)
  obtain ⟨v, hv, haround⟩ := opened.run_literals hliterals
  obtain ⟨u, hu, hclosed⟩ := v.exists_run_closing
    (hmarks.trans (by rw [haround, List.map_map]; rfl))
  refine ⟨(after source).mode.closing :: (opened.around.map Prod.fst).map Bracket.closing, u, ?_,
    hclosed⟩
  have hascii : ∀ byte ∈ (after source).mode.closing ::
      (opened.around.map Prod.fst).map Bracket.closing, byte < 0x80 := by
    refine List.forall_mem_cons.mpr ⟨Mode.closing_lt _, ?_⟩
    exact List.forall_mem_map.mpr fun bracket _ => by cases bracket <;> decide
  rw [after_append_newline, Rune.list_ascii hascii, List.map_cons, List.foldl_cons, List.map_map]
  rw [show Rune.ascii ∘ Bracket.closing = fun bracket => Rune.ascii bracket.closing from rfl]
  rw [hended, htokens, run_append_of_run _ (run_append_of_run _ hopen literals ▸ hv)]
  exact hu

/-- A text that a newline and more text complete can be continued. -/
theorem exists_run_of_continuation {source more : Bytes} {t : Unclosed}
    (h : initial.run (after (source ++ 0x0A :: more)).ended = some t) :
    ∃ u, initial.run (after source).ended = some u := by
  obtain ⟨rest, hrest⟩ := exists_tokens_foldl_read ((after source).read newline) (Rune.list more)
  rw [after_append_newline, ended, hrest, tokens_read, List.append_assoc, List.append_assoc] at h
  rcases finish_newline (after source).place.ahead (after source).mode with hliterals | hnewline
  · obtain ⟨v, hv⟩ := exists_run_of_append h
    obtain ⟨u, hu, -⟩ := v.run_literals hliterals
    exact ⟨u, (run_append_of_run _ hv _).trans hu⟩
  · rw [hnewline, ← List.append_assoc] at h
    exact exists_run_of_append h

end Expr

/-! ## Entries at the console -/

namespace Console

/-- The entry that a line continues. -/
def entry (c : Console) (line : Bytes) : Bytes :=
  if c.pending.isEmpty then line else c.pending ++ 0x0A :: line

/-- Nothing is pending after an entry was carried out. -/
theorem pending_perform (c : Console) (entry : Bytes) : (c.perform entry).1.pending = [] := by
  simp only [perform]
  split
  · rfl
  · split
    · rfl
    · split <;> rfl

/-- An entry that is no expression is kept if it is incomplete and no command. -/
theorem pending_accept {c : Console} {line : Bytes} {error : ParseError}
    (h : Expr.parse (c.entry line) = .error error) :
    (c.accept line).1.pending =
      if !isCommand (c.entry line) && error.isIncomplete then c.entry line else [] := by
  have hunfinished : isUnfinished (c.entry line) = error.isIncomplete := by
    rw [isUnfinished, h]
    cases error <;> rfl
  have haccept : c.accept line = if !isCommand (c.entry line) && isUnfinished (c.entry line) then
      ({ c with pending := c.entry line }, ⟨[], [], false⟩) else c.perform (c.entry line) := rfl
  rw [haccept, hunfinished]
  split
  · rfl
  · exact pending_perform c _

end Console

/-- A text that is rejected is called incomplete exactly if some continuation on the next
line makes it an expression.  The console goes on asking for lines exactly then, unless the
entry is a command, which is carried out at once. -/
theorem Expr.incomplete_iff_exists_continuation {source : Bytes} {error : ParseError}
    (h : parse source = .error error) :
    (error.isIncomplete = true ↔ ∃ more e, parse (source ++ 0x0A :: more) = .ok e) ∧
      ∀ (c : Console) (line : Bytes), c.entry line = source →
        ((c.accept line).1.pending = source ↔ Console.isCommand source = false ∧
          ∃ more e, parse (source ++ 0x0A :: more) = .ok e) := by
  have hverdict := verdict_parse source
  rw [h] at hverdict
  have hiff : error.isIncomplete = true ↔ ∃ more e, parse (source ++ 0x0A :: more) = .ok e := by
    rw [hverdict.isIncomplete_iff]
    constructor
    · rintro ⟨t, ht⟩
      obtain ⟨more, hmore⟩ := exists_closing_text ht
      exact ⟨more, (verdict_parse _).exists_ok_iff.mpr hmore⟩
    · rintro ⟨more, hmore⟩
      obtain ⟨t, ht, -⟩ := (verdict_parse _).exists_ok_iff.mp hmore
      exact exists_run_of_continuation ht
  refine ⟨hiff, ?_⟩
  rintro c line rfl
  -- the empty text is an expression, so the entry is not empty
  have hne : [] ≠ c.entry line := by
    intro hnil
    rw [← hnil] at h
    cases h
  rw [← hiff, Console.pending_accept h]
  cases Console.isCommand (c.entry line) <;> cases error.isIncomplete <;> simp [hne]

/-- A set whose value is cut off inside a quotation, in a parenthesis. -/
def cutOff : Bytes := utf8 "\x7ba=($ \"b"

/-- The entry that is cut off can be completed, and the console waits for that. -/
theorem Expr.incomplete_cutOff :
    (∃ more e, parse (cutOff ++ 0x0A :: more) = .ok e) ∧
      ((Console.start (.start 1000 []) []).accept cutOff).1.pending = cutOff := by
  have hparse : parse cutOff = .error (.malformed ⟨⟨3, 1, 4⟩, .unclosedParen⟩) := rfl
  have hincomplete := incomplete_iff_exists_continuation hparse
  have hmore := hincomplete.1.mp rfl
  exact ⟨hmore, (hincomplete.2 _ _ rfl).mpr ⟨rfl, hmore⟩⟩

end BitLang
