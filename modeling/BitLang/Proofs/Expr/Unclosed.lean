/-
# What a text leaves open

Whether a text can still be continued to an expression depends on little: which
parentheses and sets are open, how deep they nest, and whether the group that is under way
denotes something, since only such a group may become a key.  This module keeps track of
that token by token, without building a tree.

A token either leads on to what is open after it or cannot be continued at all.  The reader
of expressions agrees (`Expr.verdict_ofTokens`): it accepts the tokens after which nothing is
open, calls an input incomplete if something is, and rejects it for any other reason exactly
if some token cannot be continued.
-/

import BitLang.Proofs.Expr.Steps

namespace BitLang

/-- The token is a literal. -/
def Token.IsLiteral (token : Token) : Prop := ∃ bits, token.lexeme = .literal bits

/-- What a parenthesis or a set is opened by. -/
inductive Bracket where
  | paren
  | brace
deriving DecidableEq

/-- The lexeme that closes what the bracket opens. -/
def Bracket.close : Bracket → Lexeme
  | paren => .closeParen
  | brace => .closeBrace

/-- A group under way: whether it denotes something already, and its level, which counts
the function bodies that the group is in the middle of. -/
structure Progress where
  present : Bool
  depth : Nat

/-- The group that is being read, and the groups around it from the inside out, each with
the bracket that was opened in it. -/
structure Unclosed where
  current : Progress
  around : List (Bracket × Progress)

namespace Unclosed

/-- At the beginning of a text. -/
def initial : Unclosed := ⟨⟨false, 0⟩, []⟩

/-- Opens a bracket, unless that is too deep. -/
def descend (s : Unclosed) (bracket : Bracket) : Option Unclosed :=
  if s.current.depth < maxNesting then
    some ⟨⟨false, s.current.depth + 1⟩, (bracket, s.current) :: s.around⟩
  else none

/-- What is open after one more token, if it can stand there. -/
def step (s : Unclosed) : Lexeme → Option Unclosed
  | .literal _ => some ⟨⟨true, s.current.depth⟩, s.around⟩
  | .scope => some ⟨⟨true, s.current.depth⟩, s.around⟩
  | .openParen => s.descend .paren
  | .openBrace => s.descend .brace
  | .colon =>
    if s.current.depth < maxNesting then some ⟨⟨true, s.current.depth + 1⟩, s.around⟩ else none
  | .closeParen =>
    match s.around with
    | (.paren, outer) :: around => some ⟨⟨outer.present || s.current.present, outer.depth⟩, around⟩
    | _ => none
  | .closeBrace =>
    match s.around with
    | (.brace, outer) :: around => some ⟨⟨true, outer.depth⟩, around⟩
    | _ => none
  | .equals =>
    match s.around with
    | (.brace, outer) :: around =>
      if s.current.present then some ⟨⟨false, outer.depth + 1⟩, (.brace, outer) :: around⟩
      else none
    | _ => none
  | .semicolon =>
    match s.around with
    | (.brace, outer) :: around => some ⟨⟨false, outer.depth + 1⟩, (.brace, outer) :: around⟩
    | _ => none
  | .endOfInput | .fault | .unassigned _ => none

/-- What is open after some tokens, if they can stand there. -/
def run (s : Unclosed) (tokens : List Token) : Option Unclosed :=
  tokens.foldlM (fun s token => s.step token.lexeme) s

variable {s t : Unclosed} {token : Token} {read more : List Token}

@[simp]
theorem run_nil (s : Unclosed) : s.run [] = some s := rfl

theorem run_cons (s : Unclosed) (token : Token) (more : List Token) :
    s.run (token :: more) = (s.step token.lexeme).bind fun t => t.run more := rfl

theorem run_append (s : Unclosed) (read more : List Token) :
    s.run (read ++ more) = (s.run read).bind fun t => t.run more :=
  List.foldlM_append

theorem run_append_of_run (read : List Token) (h : s.run read = some t) (more : List Token) :
    s.run (read ++ more) = t.run more := by
  rw [run_append, h, Option.bind_some]

theorem run_singleton (h : s.step token.lexeme = some t) : s.run [token] = some t := by
  rw [run_cons, h, Option.bind_some, run_nil]

/-- A token that cannot stand where it does. -/
theorem run_eq_none_of_step (read : List Token) (hrun : s.run read = some t)
    (hstep : t.step token.lexeme = none) : s.run (read ++ token :: more) = none := by
  rw [run_append_of_run read hrun, run_cons, hstep, Option.bind_none]

/-- Nothing goes on after a fault. -/
theorem run_eq_none_of_fault (s : Unclosed) {tokens : List Token} (hmem : token ∈ tokens)
    (h : token.lexeme = .fault) : s.run tokens = none := by
  obtain ⟨read, more, rfl⟩ := List.append_of_mem hmem
  cases hrun : s.run read with
  | none => rw [run_append, hrun, Option.bind_none]
  | some t => exact run_eq_none_of_step read hrun (by rw [h]; rfl)

/-- Tokens that can be continued can be so from the start. -/
theorem exists_run_of_append (h : s.run (read ++ more) = some t) : ∃ u, s.run read = some u := by
  rw [run_append] at h
  obtain ⟨u, hu, -⟩ := Option.bind_eq_some_iff.mp h
  exact ⟨u, hu⟩

/-- A literal can stand anywhere and closes nothing. -/
theorem run_literals (s : Unclosed) {tokens : List Token} (h : ∀ token ∈ tokens, token.IsLiteral) :
    ∃ t, s.run tokens = some t ∧ t.around = s.around := by
  induction tokens generalizing s with
  | nil => exact ⟨s, rfl, rfl⟩
  | cons token rest ih =>
      obtain ⟨⟨bits, hbits⟩, hrest⟩ := List.forall_mem_cons.mp h
      obtain ⟨t, ht, haround⟩ := ih ⟨⟨true, s.current.depth⟩, s.around⟩ hrest
      refine ⟨t, ?_, haround⟩
      rw [run_cons, hbits]
      exact ht

/-- Whatever is open can be closed, from the inside out. -/
theorem exists_run_closing (s : Unclosed) {tokens : List Token}
    (h : tokens.map Token.lexeme = s.around.map fun entry => entry.1.close) :
    ∃ t, s.run tokens = some t ∧ t.around = [] := by
  rcases s with ⟨current, around⟩
  induction around generalizing current tokens with
  | nil =>
      obtain rfl := List.map_eq_nil_iff.mp h
      exact ⟨_, rfl, rfl⟩
  | cons entry rest ih =>
      rcases entry with ⟨bracket, outer⟩
      obtain ⟨token, more, rfl, htoken, hmore⟩ := List.map_eq_cons_iff.mp h
      rw [run_cons, htoken]
      cases bracket with
      | paren => exact ih ⟨outer.present || current.present, outer.depth⟩ hmore
      | brace => exact ih ⟨true, outer.depth⟩ hmore

/-! ## The reader keeps track -/

/-- The reader has come to the end of a group: at the end of the input, or at a mark among
the tokens before that. -/
inductive Stops (s : Unclosed) (before : List Token) (stop : Token) (after : List Token) :
    Parser.Group → Unclosed → Prop
  | atEnd {tree : Expr} {t : Unclosed} : s.run before = some t →
      Stops s before stop after ⟨tree, stop, after⟩ t
  | atMark {tree : Expr} {t : Unclosed} {read more : List Token} {mark : Token} :
      before = read ++ mark :: more → mark.lexeme.endsGroup = true → s.run read = some t →
      Stops s before stop after ⟨tree, mark, more ++ stop :: after⟩ t

/-- The reader has failed: at the end of the input with more than `level` brackets open, or
because of a token that cannot be continued. -/
inductive Fails (s : Unclosed) (level : Nat) (before : List Token) : ParseError → Prop
  | unclosed {error : ParseError} {t : Unclosed} : error.isIncomplete = true →
      s.run before = some t → level < t.around.length → Fails s level before error
  | stuck {error : ParseError} : error.isIncomplete = false → s.run before = none →
      Fails s level before error

/-- What comes of reading a group, in terms of what is open.  `inFunction` says that the
group is the body of a function, and so part of something that denotes. -/
def GroupTracks (s : Unclosed) (inFunction : Bool) (before : List Token) (stop : Token)
    (after : List Token) : Except ParseError Parser.Group → Prop
  | .ok group => ∃ depth,
      Stops s before stop after group ⟨⟨inFunction || !group.tree.isAbsent, depth⟩, s.around⟩
  | .error error => Fails s s.around.length before error

/-- What comes of reading a set that was opened with `level` brackets around it. -/
def SetTracks (s : Unclosed) (level : Nat) (before : List Token) (stop : Token)
    (after : List Token) : Except ParseError Parser.Group → Prop
  | .ok group => ∃ read more current, before = read ++ group.stop :: more ∧
      group.stop.lexeme = .closeBrace ∧ group.rest = more ++ stop :: after ∧
      s.run read = some ⟨current, s.around⟩ ∧ group.tree.isAbsent = false
  | .error error => Fails s level before error

section Tracking

variable {level : Nat} {before after : List Token} {stop : Token} {inFunction : Bool}
  {error : ParseError} {result : Except ParseError Parser.Group}

/-- What fails later fails altogether. -/
theorem Fails.of_run (h : Fails t level before error) (read : List Token)
    (hrun : s.run read = some t) {smaller : Nat} (hlevel : smaller ≤ level) :
    Fails s smaller (read ++ before) error := by
  have hbefore := run_append_of_run read hrun before
  cases h with
  | unclosed herror ht hlength => exact .unclosed herror (hbefore.trans ht) (by omega)
  | stuck herror hnone => exact .stuck herror (hbefore.trans hnone)

theorem fails_of_step (herror : error.isIncomplete = false) (read : List Token)
    (hrun : s.run read = some t) (hstep : t.step token.lexeme = none) :
    Fails s level (read ++ token :: more) error :=
  .stuck herror (run_eq_none_of_step read hrun hstep)

/-- What is read from some token on is read from the start on. -/
theorem GroupTracks.of_run (h : t.GroupTracks inFunction before stop after result)
    (read : List Token) (hrun : s.run read = some t) (haround : t.around = s.around) :
    s.GroupTracks inFunction (read ++ before) stop after result := by
  cases result with
  | error error => exact Fails.of_run h read hrun (Nat.le_of_eq (by rw [haround]))
  | ok group =>
      obtain ⟨depth, hgroup⟩ := h
      rw [haround] at hgroup
      refine ⟨depth, ?_⟩
      cases hgroup with
      | atEnd hend => exact .atEnd ((run_append_of_run read hrun before).trans hend)
      | @atMark _ _ first more mark hbefore hmark hfirst =>
          refine .atMark (by rw [hbefore, List.append_assoc]) hmark ?_
          exact (run_append_of_run read hrun first).trans hfirst

theorem SetTracks.of_run (h : t.SetTracks level before stop after result) (read : List Token)
    (hrun : s.run read = some t) (haround : t.around = s.around) :
    s.SetTracks level (read ++ before) stop after result := by
  cases result with
  | error error => exact Fails.of_run h read hrun (Nat.le_refl _)
  | ok group =>
      obtain ⟨first, more, current, rfl, hstop, hrest, hfirst, htree⟩ := h
      refine ⟨read ++ first, more, current, (List.append_assoc ..).symm, hstop, hrest, ?_, htree⟩
      rw [run_append_of_run read hrun, hfirst, haround]

end Tracking

end Unclosed

namespace Parser

open Unclosed

/-- With a certain amount of fuel the reader keeps track of what is open, as long as there
is fuel for all tokens. -/
structure Tracks (fuel : Nat) : Prop where
  operands : ∀ {before : List Token} {stop : Token},
    (∀ token ∈ before, token.lexeme ≠ .endOfInput) → stop.lexeme = .endOfInput →
    2 * (before.length + 1) ≤ fuel →
    ∀ (inFunction : Bool) (depth : Nat) (chain : Expr) (last : Token) (after : List Token)
      (around : List (Bracket × Progress)),
      GroupTracks ⟨⟨inFunction || !chain.isAbsent, depth⟩, around⟩ inFunction before stop after
        (Parser.operands fuel depth chain last (before ++ stop :: after))
  statements : ∀ {before : List Token} {stop : Token},
    (∀ token ∈ before, token.lexeme ≠ .endOfInput) → stop.lexeme = .endOfInput →
    2 * (before.length + 1) + 1 ≤ fuel →
    ∀ (outer : Progress) (opening : Token) (done : Statements) (last : Token) (after : List Token)
      (around : List (Bracket × Progress)),
      SetTracks ⟨⟨false, outer.depth + 1⟩, (.brace, outer) :: around⟩ around.length before stop
        after (Parser.statements fuel (outer.depth + 1) opening done last (before ++ stop :: after))

namespace Tracks

variable {fuel : Nat} {before more : List Token} {token stop : Token}

section Operands

variable (ih : Tracks fuel) (hmore : ∀ token ∈ more, token.lexeme ≠ .endOfInput)
  (hstop : stop.lexeme = .endOfInput) (hfuel : 2 * (more.length + 2) ≤ fuel + 1)
  (inFunction : Bool) (depth : Nat) (chain : Expr) (last : Token) (after : List Token)
  (around : List (Bracket × Progress))
include ih hmore hstop hfuel

/-- An operand that denotes something goes onto the chain. -/
theorem follow {next : Expr} (hnext : next.isAbsent = false)
    (hstep : ∀ s : Unclosed, s.step token.lexeme = some ⟨⟨true, s.current.depth⟩, s.around⟩) :
    GroupTracks ⟨⟨inFunction || !chain.isAbsent, depth⟩, around⟩ inFunction (token :: more) stop
      after (Parser.operands fuel depth (chain.follow next token.pos) token
        (more ++ stop :: after)) := by
  have hrest := ih.operands hmore hstop (by omega) inFunction depth (chain.follow next token.pos)
    token after around
  rw [Expr.isAbsent_follow, hnext, Bool.and_false, Bool.not_false, Bool.or_true] at hrest
  exact hrest.of_run [token] (run_singleton (hstep _)) rfl

/-- A parenthesis is read as a group of its own, which only a closing parenthesis may end. -/
theorem openParen (h : token.lexeme = .openParen) (hdepth : depth < maxNesting) :
    GroupTracks ⟨⟨inFunction || !chain.isAbsent, depth⟩, around⟩ inFunction (token :: more) stop
      after (Parser.operands (fuel + 1) depth chain last (token :: (more ++ stop :: after))) := by
  have hopen : run ⟨⟨inFunction || !chain.isAbsent, depth⟩, around⟩ [token] =
      some ⟨⟨false, depth + 1⟩, (.paren, ⟨inFunction || !chain.isAbsent, depth⟩) :: around⟩ :=
    run_singleton (by rw [h]; exact if_pos hdepth)
  have hinner := ih.operands hmore hstop (by omega) false (depth + 1) .absent token after
    ((.paren, ⟨inFunction || !chain.isAbsent, depth⟩) :: around)
  rw [operands_openParen h hdepth]
  generalize Parser.operands fuel (depth + 1) .absent token (more ++ stop :: after) = result
    at hinner ⊢
  cases result with
  | error error => exact Fails.of_run hinner [token] hopen (Nat.le_succ _)
  | ok inner =>
      rw [ok_bind]
      obtain ⟨innerDepth, hinner⟩ := hinner
      cases hinner with
      | atEnd hrun =>
          simp only [hstop]
          exact .unclosed rfl ((run_append_of_run [token] hopen more).trans hrun)
            (Nat.lt_succ_self _)
      | @atMark tree _ read rest mark hsplit hmark hrun =>
          subst hsplit
          have hread := (run_append_of_run [token] hopen read).trans hrun
          obtain ⟨-, hmore⟩ := List.forall_mem_append.mp hmore
          obtain ⟨hend, hrest⟩ := List.forall_mem_cons.mp hmore
          rw [List.length_append, List.length_cons] at hfuel
          rcases Lexeme.cases_of_endsGroup hmark with hlex | hlex | hlex | hlex | hlex
          · exact absurd hlex hend
          · simp only [hlex]
            exact fails_of_step rfl _ hread (by rw [hlex]; rfl)
          · simp only [hlex]
            exact fails_of_step rfl _ hread (by rw [hlex]; rfl)
          · simp only [hlex]
            have hgroup := ih.operands hrest hstop (by omega) inFunction depth
              (chain.follow tree token.pos) mark after around
            have hclose := (run_append_of_run _ hread [mark]).trans
              (run_singleton (by rw [hlex]; rfl))
            rw [Expr.isAbsent_follow, Bool.not_and, ← Bool.or_assoc] at hgroup
            rw [List.append_cons]
            exact hgroup.of_run _ hclose rfl
          · simp only [hlex]
            exact fails_of_step rfl _ hread (by rw [hlex]; rfl)

/-- A set is read to its closing brace and denotes something even without entries. -/
theorem openBrace (h : token.lexeme = .openBrace) (hdepth : depth < maxNesting) :
    GroupTracks ⟨⟨inFunction || !chain.isAbsent, depth⟩, around⟩ inFunction (token :: more) stop
      after (Parser.operands (fuel + 1) depth chain last (token :: (more ++ stop :: after))) := by
  have hopen : run ⟨⟨inFunction || !chain.isAbsent, depth⟩, around⟩ [token] =
      some ⟨⟨false, depth + 1⟩, (.brace, ⟨inFunction || !chain.isAbsent, depth⟩) :: around⟩ :=
    run_singleton (by rw [h]; exact if_pos hdepth)
  have hinner := ih.statements hmore hstop (by omega) ⟨inFunction || !chain.isAbsent, depth⟩ token
    ⟨.absent, 0, #[]⟩ token after around
  rw [operands_openBrace h hdepth]
  generalize Parser.statements fuel (depth + 1) token ⟨.absent, 0, #[]⟩ token
    (more ++ stop :: after) = result at hinner ⊢
  cases result with
  | error error => exact Fails.of_run hinner [token] hopen (Nat.le_refl _)
  | ok inner =>
      rw [ok_bind]
      obtain ⟨read, rest, current, rfl, hlex, hrest, hrun, htree⟩ := hinner
      obtain ⟨-, hmore⟩ := List.forall_mem_append.mp hmore
      rw [List.length_append, List.length_cons] at hfuel
      have hgroup := ih.operands (List.forall_mem_cons.mp hmore).2 hstop (by omega) inFunction depth
        (chain.follow inner.tree token.pos) inner.stop after around
      have hread := (run_append_of_run [token] hopen read).trans hrun
      have hclose := (run_append_of_run _ hread [inner.stop]).trans
        (run_singleton (by rw [hlex]; rfl))
      rw [Expr.isAbsent_follow, htree, Bool.and_false, Bool.not_false, Bool.or_true] at hgroup
      rw [hrest, List.append_cons]
      exact hgroup.of_run _ hclose rfl

/-- The body of a function goes on to the end of the group around it. -/
theorem colon (h : token.lexeme = .colon) (hdepth : depth < maxNesting) :
    GroupTracks ⟨⟨inFunction || !chain.isAbsent, depth⟩, around⟩ inFunction (token :: more) stop
      after (Parser.operands (fuel + 1) depth chain last (token :: (more ++ stop :: after))) := by
  have hopen : run ⟨⟨inFunction || !chain.isAbsent, depth⟩, around⟩ [token] =
      some ⟨⟨true, depth + 1⟩, around⟩ :=
    run_singleton (by rw [h]; exact if_pos hdepth)
  have hbody := ih.operands hmore hstop (by omega) true (depth + 1) .absent token after around
  rw [operands_colon h hdepth]
  generalize Parser.operands fuel (depth + 1) .absent token (more ++ stop :: after) = result
    at hbody ⊢
  cases result with
  | error error => exact Fails.of_run hbody [token] hopen (Nat.le_refl _)
  | ok body =>
      rw [ok_bind]
      obtain ⟨bodyDepth, hbody⟩ := hbody
      obtain ⟨fuel, rfl⟩ : ∃ n, fuel = n + 1 := ⟨fuel - 1, by omega⟩
      -- the token that ended the body ends the group as well
      cases hbody with
      | atEnd hrun =>
          rw [operands_endsGroup (by rw [hstop]; rfl)]
          refine ⟨bodyDepth, .atEnd ((run_append_of_run [token] hopen more).trans ?_)⟩
          rw [isAbsent_functionOf, Bool.not_false, Bool.or_true]
          exact hrun
      | @atMark tree _ read rest mark hsplit hmark hrun =>
          rw [operands_endsGroup hmark]
          refine ⟨bodyDepth, .atMark (by rw [hsplit]; rfl) hmark
            ((run_append_of_run [token] hopen read).trans ?_)⟩
          rw [isAbsent_functionOf, Bool.not_false, Bool.or_true]
          exact hrun

/-- With one more unit of fuel a group is kept track of as well. -/
theorem operands_succ :
    GroupTracks ⟨⟨inFunction || !chain.isAbsent, depth⟩, around⟩ inFunction (token :: more) stop
      after (Parser.operands (fuel + 1) depth chain last (token :: (more ++ stop :: after))) := by
  have htooDeep (h : token.lexeme = .openParen ∨ token.lexeme = .openBrace ∨
      token.lexeme = .colon) (hdepth : ¬ depth < maxNesting) :
      GroupTracks ⟨⟨inFunction || !chain.isAbsent, depth⟩, around⟩ inFunction (token :: more) stop
        after (Parser.operands (fuel + 1) depth chain last (token :: (more ++ stop :: after))) := by
    obtain ⟨pos, herror⟩ := operands_tooDeep h (Nat.le_of_not_lt hdepth)
    rw [herror]
    refine fails_of_step rfl [] rfl ?_
    rcases h with h | h | h <;> rw [h] <;> exact if_neg hdepth
  rcases token.lexeme.kinds with hends | ⟨bits, hliteral⟩ | hscope | hparen | hbrace | hcolon |
    hunexpected
  · rw [operands_endsGroup hends]
    exact ⟨depth, .atMark (List.nil_append _).symm hends rfl⟩
  · rw [operands_literal hliteral]
    exact follow ih hmore hstop hfuel inFunction depth chain after around rfl
      fun s => by rw [hliteral]; rfl
  · rw [operands_scope hscope]
    exact follow ih hmore hstop hfuel inFunction depth chain after around rfl
      fun s => by rw [hscope]; rfl
  · by_cases hdepth : depth < maxNesting
    · exact openParen ih hmore hstop hfuel inFunction depth chain last after around hparen hdepth
    · exact htooDeep (.inl hparen) hdepth
  · by_cases hdepth : depth < maxNesting
    · exact openBrace ih hmore hstop hfuel inFunction depth chain last after around hbrace hdepth
    · exact htooDeep (.inr (.inl hbrace)) hdepth
  · by_cases hdepth : depth < maxNesting
    · exact colon ih hmore hstop hfuel inFunction depth chain last after around hcolon hdepth
    · exact htooDeep (.inr (.inr hcolon)) hdepth
  · rw [operands_unexpected hunexpected]
    refine fails_of_step rfl [] rfl ?_
    rcases hunexpected with h | ⟨code, h⟩ <;> rw [h] <;> rfl

end Operands

/-- With one more unit of fuel a set is kept track of as well. -/
theorem statements_succ (ih : Tracks fuel) (hbefore : ∀ token ∈ before, token.lexeme ≠ .endOfInput)
    (hstop : stop.lexeme = .endOfInput) (hfuel : 2 * (before.length + 1) ≤ fuel)
    (outer : Progress) (opening : Token) (done : Statements) (last : Token) (after : List Token)
    (around : List (Bracket × Progress)) :
    SetTracks ⟨⟨false, outer.depth + 1⟩, (.brace, outer) :: around⟩ around.length before stop after
      (Parser.statements (fuel + 1) (outer.depth + 1) opening done last
        (before ++ stop :: after)) := by
  have hvalue := ih.operands hbefore hstop hfuel false (outer.depth + 1) .absent last after
    ((.brace, outer) :: around)
  rw [Parser.statements]
  generalize Parser.operands fuel (outer.depth + 1) .absent last (before ++ stop :: after) = result
    at hvalue ⊢
  cases result with
  | error error => exact Fails.of_run hvalue [] rfl (Nat.le_succ _)
  | ok value =>
      rw [ok_bind]
      obtain ⟨depth, hvalue⟩ := hvalue
      cases hvalue with
      | atEnd hrun =>
          simp only [hstop]
          exact .unclosed rfl hrun (Nat.lt_succ_self _)
      | @atMark tree _ read rest mark hsplit hmark hrun =>
          subst hsplit
          obtain ⟨-, hmore⟩ := List.forall_mem_append.mp hbefore
          obtain ⟨hend, hrest⟩ := List.forall_mem_cons.mp hmore
          rw [List.length_append, List.length_cons] at hfuel
          -- the statements that follow are tracked from the mark on
          have hnext (next : Statements) (hstep : step ⟨⟨!tree.isAbsent, depth⟩,
              (.brace, outer) :: around⟩ mark.lexeme =
                some ⟨⟨false, outer.depth + 1⟩, (.brace, outer) :: around⟩) :
              SetTracks ⟨⟨false, outer.depth + 1⟩, (.brace, outer) :: around⟩ around.length
                (read ++ mark :: rest) stop after
                (Parser.statements fuel (outer.depth + 1) opening next mark
                  (rest ++ stop :: after)) := by
            have hset := ih.statements hrest hstop (by omega) outer opening next mark after around
            have hmark := (run_append_of_run read hrun [mark]).trans (run_singleton hstep)
            rw [List.append_cons]
            exact hset.of_run _ hmark rfl
          rcases Lexeme.cases_of_endsGroup hmark with hlex | hlex | hlex | hlex | hlex
          · exact absurd hlex hend
          · simp only [hlex]
            exact hnext _ (by rw [hlex]; rfl)
          · simp only [hlex]
            cases htree : tree.isAbsent with
            | true => exact fails_of_step rfl _ hrun (by rw [hlex, htree]; rfl)
            | false => exact hnext _ (by rw [hlex, htree]; rfl)
          · simp only [hlex]
            exact fails_of_step rfl _ hrun (by rw [hlex]; rfl)
          · simp only [hlex]
            exact ⟨read, rest, ⟨!tree.isAbsent, depth⟩, rfl, hlex, rfl, hrun, rfl⟩

end Tracks

/-- The reader keeps track of what is open. -/
theorem tracks (fuel : Nat) : Tracks fuel := by
  induction fuel with
  | zero => exact ⟨fun _ _ h => absurd h (by omega), fun _ _ h => absurd h (by omega)⟩
  | succ fuel ih =>
      refine ⟨?_, fun hbefore hstop hfuel => ih.statements_succ hbefore hstop (by omega)⟩
      intro before stop hbefore hstop hfuel inFunction depth chain last after around
      cases before with
      | nil =>
          rw [List.nil_append, operands_endsGroup (by rw [hstop]; rfl)]
          exact ⟨depth, .atEnd rfl⟩
      | cons token more =>
          exact ih.operands_succ (List.forall_mem_cons.mp hbefore).2 hstop hfuel inFunction depth
            chain last after around

end Parser

namespace Expr

open Unclosed

/-- The tokens of a text, with the end of the input behind them, are an expression if
nothing is open after them, incomplete if something is, and otherwise wrong because one of
them cannot stand where it does. -/
inductive Verdict (tokens : List Token) : Except ParseError Expr → Prop
  | complete {tree : Expr} {t : Unclosed} : initial.run tokens = some t → t.around = [] →
      Verdict tokens (.ok tree)
  | incomplete {error : ParseError} {t : Unclosed} : initial.run tokens = some t → t.around ≠ [] →
      error.isIncomplete = true → Verdict tokens (.error error)
  | wrong {error : ParseError} : initial.run tokens = none → error.isIncomplete = false →
      Verdict tokens (.error error)

variable {tokens : List Token} {stop : Token}

theorem verdict_ofTokens (htokens : ∀ token ∈ tokens, token.lexeme ≠ .endOfInput)
    (hstop : stop.lexeme = .endOfInput) : Verdict tokens (ofTokens (tokens ++ [stop])) := by
  obtain ⟨first, hfirst⟩ := ofTokens_append_end tokens stop
  have hgroup := (Parser.tracks (2 * (tokens ++ [stop]).length + 1)).operands htokens hstop
    (by simp) false 0 .absent first [] []
  rw [hfirst]
  generalize Parser.operands _ 0 .absent first (tokens ++ [stop]) = result at hgroup ⊢
  cases result with
  | error error =>
      cases hgroup with
      | unclosed herror hrun hlevel =>
          exact .incomplete hrun (List.ne_nil_of_length_pos hlevel) herror
      | stuck herror hrun => exact .wrong hrun herror
  | ok group =>
      rw [ok_bind]
      obtain ⟨depth, hgroup⟩ := hgroup
      cases hgroup with
      | atEnd hrun =>
          simp only [hstop]
          exact .complete hrun rfl
      | @atMark tree _ read rest mark hsplit hmark hrun =>
          subst hsplit
          obtain ⟨-, hmore⟩ := List.forall_mem_append.mp htokens
          have hend := (List.forall_mem_cons.mp hmore).1
          -- no mark ends the text
          rcases Lexeme.cases_of_endsGroup hmark with hlex | hlex | hlex | hlex | hlex
          · exact absurd hlex hend
          all_goals
            simp only [hlex]
            exact .wrong (run_eq_none_of_step read hrun (by rw [hlex]; rfl)) rfl

/-- The tokens after which nothing is open are accepted. -/
theorem Verdict.exists_ok_iff {result : Except ParseError Expr} (h : Verdict tokens result) :
    (∃ tree, result = .ok tree) ↔ ∃ t, initial.run tokens = some t ∧ t.around = [] := by
  cases h with
  | complete hrun haround => exact ⟨fun _ => ⟨_, hrun, haround⟩, fun _ => ⟨_, rfl⟩⟩
  | incomplete hrun haround => simp [hrun, haround]
  | wrong hrun => simp [hrun]

/-- The tokens that are not accepted are incomplete if they can be continued. -/
theorem Verdict.isIncomplete_iff {error : ParseError} (h : Verdict tokens (.error error)) :
    error.isIncomplete = true ↔ ∃ t, initial.run tokens = some t := by
  cases h with
  | incomplete hrun _ herror => exact ⟨fun _ => ⟨_, hrun⟩, fun _ => herror⟩
  | wrong hrun herror => simp [hrun, herror]

end Expr

end BitLang
