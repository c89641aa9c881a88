/-
# Layout makes no difference

The spellings of the tokens of a text, written again with other layout between them, are read
as the same tokens.  A literal can end in many ways, and some of them hang on what follows: a
word and a number go on until a rune ends them, and a quoted form that is left open or a
backslash at the end take all that follows.  But layout ends words and numbers wherever
anything else does, and what takes all that follows can only come last, where nothing is
written behind it.

A tree depends on the lexemes of its tokens alone, up to spans, so it is the same too, and so
are its serialization and its fingerprint.
-/

import BitLang.Expr.Fingerprint
import BitLang.Proofs.Expr.Derivation
import BitLang.Proofs.Expr.Serialization
import BitLang.Proofs.Token.Tiling

namespace BitLang

/-! ## Positions leave no trace -/

/-- The token without its position. -/
def Token.unplaced (token : Token) : Token := { token with pos := .none }

theorem Token.lexeme_eq_of_unplaced {token token' : Token} (h : token.unplaced = token'.unplaced) :
    token.lexeme = token'.lexeme := by
  cases token
  cases token'
  exact (Token.mk.inj h).1

namespace Scanner

/-- The mode without the position of the token that the scan is in the middle of. -/
def Mode.unplaced : Mode → Mode
  | layout => layout
  | comment escaped => comment escaped
  | word _ escaped raw content => word .none escaped raw content
  | number _ raw => number .none raw
  | quoted _ quote escaped raw content => quoted .none quote escaped raw content

theorem stopsAt_unplaced (mode : Mode) (rune : Rune) :
    mode.unplaced.stopsAt rune = mode.stopsAt rune := by
  cases mode with
  | word start escaped raw content => cases escaped <;> rfl
  | _ => rfl

theorem finish_unplaced (mode : Mode) : mode.unplaced.finish = mode.finish.map Token.unplaced := by
  cases mode with
  | layout | comment | quoted => rfl
  | word start escaped raw content => cases content <;> rfl
  | number start raw =>
      simp only [Mode.unplaced, Mode.finish, number]
      split <;> rfl

theorem start_unplaced (pos : Position) (rune : Rune) :
    start .none rune = ((start pos rune).1.map Token.unplaced, (start pos rune).2.unplaced) := by
  unfold start
  repeat' split
  all_goals rfl

theorem step_unplaced (pos : Position) (mode : Mode) (rune : Rune) :
    step .none mode.unplaced rune =
      ((step pos mode rune).1.map Token.unplaced, (step pos mode rune).2.unplaced) := by
  have hends (ended : Mode) :
      (ended.unplaced.finish ++ (start .none rune).1, (start .none rune).2) =
        ((ended.finish ++ (start pos rune).1).map Token.unplaced, (start pos rune).2.unplaced) := by
    rw [finish_unplaced, start_unplaced pos, List.map_append]
  cases mode with
  | layout => exact start_unplaced pos rune
  | comment escaped =>
      cases escaped with
      | true => rfl
      | false =>
          simp only [Mode.unplaced, step]
          split <;> rfl
  | word first escaped raw content =>
      cases escaped with
      | true => rfl
      | false =>
          simp only [Mode.unplaced, step]
          split
          · rfl
          split
          · exact hends (.word first false raw content)
          · rfl
  | number first raw =>
      simp only [Mode.unplaced, step]
      split
      · rfl
      · exact hends (.number first raw)
  | quoted first quote escaped raw content =>
      cases escaped with
      | true => rfl
      | false =>
          simp only [Mode.unplaced, step]
          split
          · rfl
          split <;> rfl

/-- Two scans that differ in positions only complete tokens that do, and stay that way. -/
theorem step_eq_unplaced {mode mode' : Mode} (h : mode'.unplaced = mode.unplaced)
    (pos pos' : Position) (rune : Rune) :
    (step pos' mode' rune).1.map Token.unplaced = (step pos mode rune).1.map Token.unplaced ∧
      (step pos' mode' rune).2.unplaced = (step pos mode rune).2.unplaced := by
  have hstep := step_unplaced pos mode rune
  rw [← h, step_unplaced pos'] at hstep
  exact Prod.mk.inj hstep

/-- What ends a token is ended by layout too. -/
theorem stopsAt_layout {mode : Mode} {rune rune' : Rune} (h : mode.stopsAt rune = true)
    (hrune : rune'.isSpace = true ∨ rune'.is '#' = true) : mode.stopsAt rune' = true := by
  have hseparator : rune'.isSeparator = true := by
    rcases hrune with hrune | hrune <;> simp [Rune.isSeparator, hrune]
  have hdigit : rune'.isDigit = false := by
    have hcode : rune'.code < 0x30 := by
      simp only [Rune.isSpace, Rune.is, Bool.or_eq_true, beq_iff_eq] at hrune
      rcases hrune with (((h | h) | h) | h) | h <;> rw [h] <;> decide
    simp [Rune.isDigit, Nat.not_le_of_lt hcode]
  cases mode with
  | layout | comment | quoted => cases h
  | word start escaped raw content =>
      cases escaped with
      | true => cases h
      | false =>
          simp only [Mode.stopsAt, Bool.and_eq_true] at h ⊢
          exact ⟨h.1, hseparator⟩
  | number start raw => simp [Mode.stopsAt, hdigit]

end Scanner

/-! ## One token again -/

namespace Cursor

open Scanner

theorem length_readIn_le (mode : Mode) (place : Place) (runes : List Rune) :
    (readIn mode place runes).2.ahead.length ≤ runes.length := by
  induction runes generalizing mode place with
  | nil => exact Nat.le_refl _
  | cons rune rest ih =>
      rw [readIn]
      split
      · exact Nat.le_refl _
      · split
        · exact Nat.le_succ _
        · exact (ih _ _).trans (Nat.le_succ _)

/-- A token that ends where the scan stands is what the mode amounts to, and the next rune
ends it. -/
theorem finish_of_readIn {mode : Mode} {place : Place} {rest : List Rune} {token : Token}
    {after : Cursor} (hread : readIn mode place rest = (some token, after))
    (hafter : after.ahead = rest) :
    mode.finish = [token] ∧ ∀ rune ∈ rest.head?, mode.stopsAt rune = true := by
  cases rest with
  | nil =>
      rw [readIn, Prod.mk.injEq] at hread
      refine ⟨?_, by simp⟩
      rw [finish_eq, hread.1]
      rfl
  | cons rune rest =>
      by_cases hstop : mode.stopsAt rune = true
      · obtain ⟨⟨ended, hfinish⟩, -⟩ := step_of_stopsAt hstop place.ahead
        rw [readIn_stop hstop hfinish] at hread
        cases hread
        exact ⟨hfinish, by rintro _ ⟨⟩; exact hstop⟩
      · -- any other rune is passed
        have hlength : after.ahead.length ≤ rest.length := by
          rw [Bool.not_eq_true] at hstop
          rcases step_of_not_stopsAt hstop place.ahead with ⟨next, hstep⟩ | ⟨ended, hstep⟩
          · rw [readIn_skip hstop hstep] at hread
            have hle := length_readIn_le next (place.pass rune) rest
            rwa [hread] at hle
          · rw [readIn_complete hstop hstep] at hread
            cases hread
            exact Nat.le_refl _
        rw [hafter] at hlength
        exact absurd hlength (Nat.not_succ_le_self _)

theorem readIn_of_finish {mode : Mode} {token : Token} (hfinish : mode.finish = [token])
    (place : Place) {rest : List Rune} (hstop : ∀ rune ∈ rest.head?, mode.stopsAt rune = true) :
    readIn mode place rest = (some token, ⟨place, rest⟩) := by
  cases rest with
  | nil =>
      rw [readIn, hfinish]
      rfl
  | cons rune rest => exact readIn_stop (hstop rune rfl) hfinish

/-- A scan that reads some runes to the end of a token reads them again to the end of the
same token, wherever they stand, when layout follows or nothing does. -/
theorem readIn_again {mode mode' : Mode} (hmode : mode'.unplaced = mode.unplaced)
    (place place' : Place) {more rest rest' : List Rune} {token : Token} {after : Cursor}
    (hread : readIn mode place (more ++ rest) = (some token, after)) (hafter : after.ahead = rest)
    (hrest : rest = [] → rest' = [])
    (hlayout : ∀ rune ∈ rest'.head?, rune.isSpace = true ∨ rune.is '#' = true) :
    ∃ token', readIn mode' place' (more ++ rest') = (some token', ⟨place'.passAll more, rest'⟩) ∧
      token'.lexeme = token.lexeme := by
  induction more generalizing mode mode' place place' with
  | nil =>
      obtain ⟨hfinish, hstop⟩ := finish_of_readIn hread hafter
      have hfinish' : mode'.finish.map Token.unplaced = [token.unplaced] := by
        rw [← finish_unplaced, hmode, finish_unplaced, hfinish]
        rfl
      obtain ⟨token', hfinish', htoken⟩ := List.map_eq_singleton_iff.mp hfinish'
      refine ⟨token', readIn_of_finish hfinish' place' fun rune hmem => ?_,
        Token.lexeme_eq_of_unplaced htoken⟩
      -- something follows now, so something followed before, and it ended the token
      have hne : rest ≠ [] := by
        intro hnil
        rw [hrest hnil] at hmem
        cases hmem
      rw [← stopsAt_unplaced, hmode, stopsAt_unplaced]
      exact stopsAt_layout (hstop _ (List.head?_eq_some_head hne)) (hlayout rune hmem)
  | cons rune more ih =>
      have hstop : mode.stopsAt rune = false := by
        by_contra hstop
        rw [Bool.not_eq_false] at hstop
        obtain ⟨⟨ended, hfinish⟩, -⟩ := step_of_stopsAt hstop place.ahead
        rw [List.cons_append, readIn_stop hstop hfinish] at hread
        cases hread
        have := congrArg List.length hafter
        simp at this
        omega
      have hstop' : mode'.stopsAt rune = false := by
        rw [← stopsAt_unplaced, hmode, stopsAt_unplaced, hstop]
      obtain ⟨htokens, hnext⟩ := step_eq_unplaced hmode place.ahead place'.ahead rune
      rcases step_of_not_stopsAt hstop place.ahead with ⟨next, hstep⟩ | ⟨ended, hstep⟩
      · rw [List.cons_append, readIn_skip hstop hstep] at hread
        rw [hstep] at htokens hnext
        have hstep' : step place'.ahead mode' rune =
            ([], (step place'.ahead mode' rune).2) :=
          Prod.ext (List.map_eq_nil_iff.mp htokens) rfl
        rw [List.cons_append, readIn_skip hstop' hstep']
        exact ih hnext _ _ hread
      · rw [List.cons_append, readIn_complete hstop hstep] at hread
        cases hread
        obtain rfl : more = [] := List.append_left_eq_self.mp hafter
        rw [hstep] at htokens
        obtain ⟨token', htoken', htoken⟩ := List.map_eq_singleton_iff.mp htokens
        have hstep' : step place'.ahead mode' rune =
            ([token'], (step place'.ahead mode' rune).2) := Prod.ext htoken' rfl
        exact ⟨token', readIn_complete hstop' hstep', Token.lexeme_eq_of_unplaced htoken⟩

end Cursor

/-! ## All tokens again -/

/-- The words stand in the text in order, with layout between any two of them. -/
inductive Spaced : List Bytes → Bytes → Prop
  | nil : Spaced [] []
  | single (word : Bytes) : Spaced [word] word
  | cons (word : Bytes) {gap next text : Bytes} {words : List Bytes}
      (hgap : Scanner.IsLayout (Rune.list gap)) (hne : gap ≠ []) (h : Spaced (next :: words) text) :
      Spaced (word :: next :: words) (word ++ (gap ++ text))

namespace Scanner

theorem tokensFrom_layout_append {gap : List Rune} (h : IsLayout gap) (place : Place)
    (rest : List Rune) :
    tokensFrom .layout place (gap ++ rest) = tokensFrom .layout (place.passAll gap) rest := by
  rw [tokensFrom_eq, Cursor.readIn_layout_append h, ← tokensFrom_eq]

/-- The first token of what is ahead is read again from its spelling, wherever that stands and
whatever layout follows; but if nothing followed before, nothing may follow now. -/
theorem tokensFrom_again {source : Bytes} {c : Cursor} (hc : c.ahead <:+: Rune.list source)
    {token other : Token} {others : List Token} (htoken : token.lexeme ≠ .fault)
    (hahead : tokensFrom .layout c.place c.ahead = token :: other :: others) :
    ∃ behind : Cursor, behind.ahead <:+: Rune.list source ∧
      tokensFrom .layout behind.place behind.ahead = other :: others ∧
      ∀ (place : Place) (rest : List Rune), (behind.ahead = [] → rest = []) →
        (∀ rune ∈ rest.head?, rune.isSpace = true ∨ rune.is '#' = true) →
        ∃ again place', again.lexeme = token.lexeme ∧
          tokensFrom .layout place (Rune.list token.text ++ rest) =
            again :: tokensFrom .layout place' rest := by
  rw [tokensFrom_eq] at hahead
  have hfinds := c.finds_readIn
  cases hread : Cursor.readIn .layout c.place c.ahead with
  | mk found behind =>
    rw [hread] at hfinds hahead
    cases hfinds with
    | ended => simp at hahead
    | @token token' gap spelling rest hruns hgap hspelling hspelled =>
      obtain ⟨rfl, hothers⟩ := List.cons.inj hahead
      have hbehind : rest <:+: Rune.list source :=
        .trans ⟨gap ++ spelling, [], by simp [hruns]⟩ hc
      refine ⟨_, hbehind, hothers, fun place rest' hnil hlayout => ?_⟩
      have htext : Rune.list token'.text = spelling := by
        rw [hspelled.text_eq, messageOf_eq_nil htoken]
        exact Rune.list_bytesOf (.trans ⟨gap, rest, hruns.symm⟩ hc)
      rw [hruns, List.append_assoc, Cursor.readIn_layout_append hgap] at hread
      obtain ⟨again, hagain, hlexeme⟩ := Cursor.readIn_again rfl _ place hread rfl hnil hlayout
      exact ⟨again, _, hlexeme, by rw [htext, tokensFrom_eq, hagain]⟩

/-- The tokens of what is ahead are read again from their spellings, spaced anew. -/
theorem lexemes_spaced {source : Bytes} {tokens : List Token} {last : Token}
    (hlast : last.lexeme = .endOfInput) (htokens : ∀ token ∈ tokens, token.lexeme ≠ .fault)
    {c : Cursor} (hc : c.ahead <:+: Rune.list source)
    (hahead : tokensFrom .layout c.place c.ahead = tokens ++ [last]) {text : Bytes}
    (hspaced : Spaced (tokens.map Token.text) text) (place : Place) :
    (tokensFrom .layout place (Rune.list text)).map Token.lexeme =
      (tokens ++ [last]).map Token.lexeme := by
  have hend (place : Place) :
      (tokensFrom .layout place []).map Token.lexeme = [last].map Token.lexeme := by
    rw [List.map_singleton, hlast]
    rfl
  induction tokens generalizing c text place with
  | nil =>
      cases hspaced
      exact hend place
  | cons token tokens ih =>
      obtain ⟨htoken, hothers⟩ := List.forall_mem_cons.mp htokens
      cases tokens with
      | nil =>
          obtain ⟨behind, -, -, hagain⟩ := tokensFrom_again hc htoken hahead
          cases hspaced
          obtain ⟨again, place', hlexeme, hread⟩ :=
            hagain place [] (fun _ => rfl) fun _ hmem => nomatch hmem
          rw [List.append_nil] at hread
          rw [hread, List.map_cons, hlexeme, hend]
          rfl
      | cons next tokens =>
          obtain ⟨behind, hbehind, hmore, hagain⟩ := tokensFrom_again hc htoken hahead
          cases hspaced with
          | @cons _ gap _ text _ hgap hne hspaced =>
              obtain ⟨rune, runes, hrunes, hrune⟩ := hgap.exists_cons hne
              -- a token that takes all that follows has no other token behind it
              have hnil : behind.ahead ≠ [] := by
                intro hnil
                simp [hnil, tokensFrom, Mode.finish] at hmore
              obtain ⟨again, place', hlexeme, hread⟩ :=
                hagain place (Rune.list gap ++ Rune.list text) (fun h => absurd h hnil) (by
                  rw [hrunes]
                  rintro _ ⟨⟩
                  exact hrune)
              rw [hgap.list_between hne, hread, List.map_cons, hlexeme,
                tokensFrom_layout_append hgap, ih hothers hbehind hmore hspaced]
              rfl

/-- The spellings of the tokens of a text, spaced anew, are read as the same lexemes. -/
theorem lexemes_scan_spaced {source gap text : Bytes}
    (hfaults : ∀ token ∈ Token.scan source, token.lexeme ≠ .fault)
    (hgap : IsLayout (Rune.list gap))
    (hspaced : Spaced (((Token.scan source).filter
      fun token => token.lexeme != .endOfInput).map Token.text) text) :
    (Token.scan (gap ++ text)).map Token.lexeme = (Token.scan source).map Token.lexeme := by
  obtain ⟨tokens, last, hscan, htokens, hlast⟩ := Token.exists_scan_eq source
  have hfilter : (Token.scan source).filter (fun token => token.lexeme != .endOfInput) = tokens := by
    rw [hscan, List.filter_append, List.filter_eq_self.mpr (by simpa using htokens)]
    simp [hlast]
  rw [hfilter] at hspaced
  rw [scan_eq (gap ++ text), hgap.list_append, tokensFrom_layout_append hgap, hscan]
  refine lexemes_spaced hlast (fun token hmem => hfaults token ?_) (c := Cursor.start source)
    (List.infix_refl _) ((scan_eq source).symm.trans hscan) hspaced _
  rw [hscan]
  exact List.mem_append_left _ hmem

end Scanner

namespace Token

theorem tokenize_eq_ok_iff {source : Bytes} {tokens : List Token} :
    tokenize source = .ok tokens ↔
      scan source = tokens ∧ ∀ token ∈ tokens, token.lexeme ≠ .fault := by
  rw [tokenize]
  cases hfault : firstFault? (scan source) with
  | some fault =>
      have hlexeme : fault.lexeme = .fault := by simpa using List.find?_some hfault
      refine iff_of_false (by simp) ?_
      rintro ⟨rfl, hnone⟩
      exact hnone fault (List.mem_of_find?_eq_some hfault) hlexeme
  | none =>
      have hnone : ∀ token ∈ scan source, token.lexeme ≠ .fault := by
        simpa [firstFault?] using hfault
      simp only [Except.ok.injEq]
      constructor
      · rintro rfl
        exact ⟨rfl, hnone⟩
      · exact fun h => h.1

/-- A text is read as tokens if another with the same lexemes is. -/
theorem tokenize_of_lexemes {source respaced : Bytes} {tokens : List Token}
    (h : tokenize source = .ok tokens)
    (hlexemes : (scan respaced).map Token.lexeme = (scan source).map Token.lexeme) :
    tokenize respaced = .ok (scan respaced) := by
  obtain ⟨rfl, hfaults⟩ := tokenize_eq_ok_iff.mp h
  refine tokenize_eq_ok_iff.mpr ⟨rfl, fun token hmem hfault => ?_⟩
  have hmem' := List.mem_map_of_mem (f := Token.lexeme) hmem
  rw [hlexemes, hfault] at hmem'
  obtain ⟨token', hmem', hfault'⟩ := List.mem_map.mp hmem'
  exact hfaults token' hmem' hfault'

end Token

namespace Expr

/-- Texts with the same lexemes are read as trees that agree up to spans. -/
theorem exists_parse_of_lexemes {source respaced : Bytes} {tokens tokens' : List Token}
    (h : Token.tokenize source = .ok tokens) (h' : Token.tokenize respaced = .ok tokens')
    (hlexemes : tokens'.map Token.lexeme = tokens.map Token.lexeme) {e : Expr}
    (he : parse source = .ok e) :
    ∃ e', parse respaced = .ok e' ∧ e'.eraseSpans = e.eraseSpans := by
  rw [parse, h] at he
  rw [parse, h']
  obtain ⟨rfl, -⟩ := Token.tokenize_eq_ok_iff.mp h
  obtain ⟨rfl, -⟩ := Token.tokenize_eq_ok_iff.mp h'
  obtain ⟨before, last, hscan, hbefore, hlast⟩ := Token.exists_scan_eq source
  obtain ⟨before', last', hscan', -, hlast'⟩ := Token.exists_scan_eq respaced
  rw [hscan, hscan', List.map_append, List.map_append] at hlexemes
  rw [hscan] at he
  rw [hscan']
  exact exists_ofTokens_of_lexemes hlast hlast' hbefore
    (List.append_inj_left' hlexemes rfl) he

/-- Layout makes no difference.  Take a text that is read as tokens, and write their spellings
in order behind any layout and with layout between any two of them: this is read as the same
lexemes.  It is an expression if and only if the first text is, and the same one up to spans,
with the same serialization and the same fingerprint. -/
theorem parse_spaced {source gap text : Bytes} {tokens : List Token}
    (h : Token.tokenize source = .ok tokens) (hgap : Scanner.IsLayout (Rune.list gap))
    (hspaced : Spaced ((tokens.filter fun token => token.lexeme != .endOfInput).map Token.text)
      text) :
    (∃ tokens', Token.tokenize (gap ++ text) = .ok tokens' ∧
      tokens'.map Token.lexeme = tokens.map Token.lexeme) ∧
    ((∃ e, parse (gap ++ text) = .ok e) ↔ ∃ e, parse source = .ok e) ∧
    ∀ e e', parse source = .ok e → parse (gap ++ text) = .ok e' →
      e'.eraseSpans = e.eraseSpans ∧ e'.serialize = e.serialize ∧
        e'.fingerprint = e.fingerprint := by
  have hsource := Token.tokenize_eq_ok_iff.mp h
  obtain ⟨rfl, hfaults⟩ := hsource
  have hlexemes := Scanner.lexemes_scan_spaced hfaults hgap hspaced
  have h' := Token.tokenize_of_lexemes h hlexemes
  refine ⟨⟨_, h', hlexemes⟩, ⟨?_, ?_⟩, ?_⟩
  · rintro ⟨e', he'⟩
    obtain ⟨e, he, -⟩ := exists_parse_of_lexemes h' h hlexemes.symm he'
    exact ⟨e, he⟩
  · rintro ⟨e, he⟩
    obtain ⟨e', he', -⟩ := exists_parse_of_lexemes h h' hlexemes he
    exact ⟨e', he'⟩
  · intro e e' he he'
    obtain ⟨e'', he'', hspans⟩ := exists_parse_of_lexemes h h' hlexemes he
    cases he'.symm.trans he''
    have hserialize : e'.serialize = e.serialize := by
      rw [serialize, serialize, ← serializeOnto_eraseSpans e', hspans, serializeOnto_eraseSpans]
    exact ⟨hspans, hserialize, congrArg Sha256.digest hserialize⟩

/-- A word, a colon, a text, a number and a word, with nothing between them. -/
def crowded : Bytes := utf8 "a:\"b#c\"12x"

/-- The same, with a comment and white space between them. -/
def airy : Bytes := utf8 "a#!#: \"b#c\"\n12\tx"

/-- A tab, and a comment that holds an escaped `#`. -/
def header : Bytes := utf8 "\t# \\# #"

theorem parse_spaced_crowded :
    Token.tokenize crowded = .ok (Token.scan crowded) ∧
      Scanner.IsLayout (Rune.list header) ∧
      Spaced (((Token.scan crowded).filter fun token => token.lexeme != .endOfInput).map
        Token.text) airy ∧
      ∃ e e', parse crowded = .ok e ∧ parse (header ++ airy) = .ok e' ∧
        e'.eraseSpans = e.eraseSpans ∧ e'.serialize = e.serialize ∧
        e'.fingerprint = e.fingerprint := by
  have htokens : Token.tokenize crowded = .ok (Token.scan crowded) := rfl
  have hheader : Scanner.IsLayout (Rune.list header) := by
    have hlist : Rune.list header = .ascii 0x09 :: .ascii 0x23 ::
        ([.ascii 0x20, .ascii 0x5C, .ascii 0x23, .ascii 0x20] ++ [.ascii 0x23]) := by decide
    rw [hlist]
    exact .space rfl (.comment rfl (.plain rfl rfl (.escaped rfl (.plain rfl rfl .nil))) rfl .nil)
  have hspaced : Spaced (((Token.scan crowded).filter fun token =>
      token.lexeme != .endOfInput).map Token.text) airy := by
    have hcomment : Scanner.IsLayout (Rune.list (utf8 "#!#")) := by
      have hlist : Rune.list (utf8 "#!#") =
          .ascii 0x23 :: ([.ascii 0x21] ++ [.ascii 0x23]) := by decide
      rw [hlist]
      exact .comment rfl (.plain rfl rfl .nil) rfl .nil
    have hblank {byte : UInt8} (hspace : (Rune.ascii byte).isSpace = true) (hbyte : byte < 0x80) :
        Scanner.IsLayout (Rune.list [byte]) := by
      rw [Rune.list_cons_ascii hbyte]
      exact .space hspace .nil
    have hwords : ((Token.scan crowded).filter fun token => token.lexeme != .endOfInput).map
        Token.text = [utf8 "a", utf8 ":", utf8 "\"b#c\"", utf8 "12", utf8 "x"] := by decide
    have hairy : airy = utf8 "a" ++ (utf8 "#!#" ++ (utf8 ":" ++ ([0x20] ++ (utf8 "\"b#c\"" ++
        ([0x0A] ++ (utf8 "12" ++ ([0x09] ++ utf8 "x"))))))) := by decide
    rw [hwords, hairy]
    exact .cons _ hcomment (by decide) (.cons _ (hblank rfl (by decide)) (by decide)
      (.cons _ (hblank rfl (by decide)) (by decide)
        (.cons _ (hblank rfl (by decide)) (by decide) (.single _))))
  obtain ⟨-, hiff, htrees⟩ := parse_spaced htokens hheader hspaced
  obtain ⟨e, he⟩ : ∃ e, parse crowded = .ok e := ⟨_, rfl⟩
  obtain ⟨e', he'⟩ := hiff.mpr ⟨e, he⟩
  exact ⟨htokens, hheader, hspaced, e, e', he, he', htrees e e' he he'⟩

end Expr

end BitLang
