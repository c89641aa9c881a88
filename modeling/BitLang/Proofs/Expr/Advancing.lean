/-
# Reading moves forward

A reading by position only ever moves forward.  A group ends at a token that may end it, at or
behind the position where it started, and a set ends at a closing brace.  Since the last token is
the end of the input, which every group stops at, no reading gets behind it.  Twice the number of
tokens that are left bounds the steps of a group: each token is passed once, and the token that
ends the body of a function is seen a second time by the group around it.

Both facts depend on each other.  A group goes on behind whatever was read inside of it, so it
needs to know where that ended before it can be said to have enough fuel left.  They are
therefore one contract (`Ends`), which is shown for all readings in one induction on the fuel
(`advances`).
-/

import BitLang.Proofs.Expr.Indices

namespace BitLang.Parser.Indexed

variable {α β : Type} {tokens : List Token}

/-! ## How readings end -/

/-- The reading ends with something good or with a malformed text.  It runs out of fuel only if
there is little of it, and it never lacks a position. -/
inductive Ends (short : Prop) (good : α → Prop) : Indexed α → Prop
  | value {a : α} : good a → Ends short good (.mk (some (.ok a)))
  | malformed (error : SyntaxError) : Ends short good (.mk (some (.error (.malformed error))))
  | endless : short → Ends short good (.mk (some (.error .endless)))

section Ends

variable {short less : Prop} {good : α → Prop} {next : β → Prop} {x : Indexed α}

theorem ends_reject (pos : Position) (cause : SyntaxError.Cause) :
    Ends short good (ofExcept (reject pos cause)) := .malformed _

theorem Ends.weaken (h : Ends short good x) (hshort : short → less) : Ends less good x := by
  cases h with
  | value ha => exact .value ha
  | malformed error => exact .malformed error
  | endless hs => exact .endless (hshort hs)

theorem Ends.imp {better : α → Prop} (h : Ends short better x) (himp : ∀ a, better a → good a) :
    Ends short good x := by
  cases h with
  | value ha => exact .value (himp _ ha)
  | malformed error => exact .malformed error
  | endless hs => exact .endless hs

theorem Ends.bind {f : α → Indexed β} (h : Ends short good x)
    (hnext : ∀ a, good a → Ends short next (f a)) : Ends short next (x >>= f) := by
  cases h with
  | value ha => exact hnext _ ha
  | malformed error => exact .malformed error
  | endless hs => exact .endless hs

theorem Ends.run_ne_none (h : Ends short good x) : x.run ≠ none := by
  cases h <;> exact nofun

theorem Ends.run_ne_endless (h : Ends short good x) (hfuel : ¬short) :
    x.run ≠ some (.error .endless) := by
  cases h with
  | value _ | malformed _ => exact nofun
  | endless hs => exact absurd hs hfuel

theorem Ends.good_of_run {a : α} (h : Ends short good x) (hrun : x.run = some (.ok a)) :
    good a := by
  cases h with
  | value ha =>
      cases hrun
      exact ha
  | malformed _ | endless _ => cases hrun

end Ends

/-! ## Where readings end -/

/-- The list of tokens closes with the end of the input. -/
def EndsInput (tokens : List Token) : Prop :=
  ∃ token, tokens.getLast? = some token ∧ token.lexeme = .endOfInput

/-- What was found ends at or behind a position, at a token with such a lexeme. -/
def StopsFrom (tokens : List Token) (start : Nat) (mark : Lexeme → Prop) (found : Expr × Nat) :
    Prop :=
  start ≤ found.2 ∧ ∃ token, tokens[found.2]? = some token ∧ mark token.lexeme

theorem StopsFrom.mono {first start : Nat} {mark : Lexeme → Prop} {found : Expr × Nat}
    (h : StopsFrom tokens start mark found) (hle : first ≤ start) :
    StopsFrom tokens first mark found :=
  ⟨Nat.le_trans hle h.1, h.2⟩

theorem EndsInput.ne_nil (h : EndsInput tokens) : tokens ≠ [] := by
  rintro rfl
  obtain ⟨token, hlast, -⟩ := h
  cases hlast

/-- Behind any token but the end of the input there is another one. -/
theorem EndsInput.succ_lt (h : EndsInput tokens) {i : Nat} {token : Token}
    (htoken : tokens[i]? = some token) (hmore : token.lexeme ≠ .endOfInput) :
    i + 1 < tokens.length := by
  obtain ⟨last, hlast, hend⟩ := h
  rw [List.getLast?_eq_getElem?] at hlast
  obtain ⟨hi, -⟩ := List.getElem?_eq_some_iff.mp htoken
  by_contra hle
  have hsame : i = tokens.length - 1 := by omega
  rw [hsame, hlast] at htoken
  exact hmore (Option.some.inj htoken ▸ hend)

theorem ends_checkDepth {short : Prop} (hne : tokens ≠ []) (depth : Int) (i : Nat) :
    Ends short (fun _ => True) (checkDepthAt tokens depth i) := by
  have hlength := List.length_pos_iff.mpr hne
  rw [checkDepthAt]
  split
  · have hi : (if tokens.length ≤ i then tokens.length - 1 else i) < tokens.length := by
      split <;> omega
    rw [tokenAt_bind (List.getElem?_eq_getElem hi)]
    exact ends_reject _ _
  · exact .value trivial

/-- With so much fuel, readings end ahead of where they started, and without a result only if
there is less fuel than twice the number of tokens ahead. -/
structure Advances (tokens : List Token) (fuel : Nat) : Prop where
  operands : ∀ {depth : Int} {chain : Expr} {i : Nat}, i < tokens.length →
    Ends (fuel < 2 * (tokens.length - i)) (StopsFrom tokens i fun lexeme => lexeme.endsGroup)
      (Indexed.operands tokens fuel depth chain i)
  statements : ∀ {depth : Int} {opening : Token} {done : Statements} {i : Nat},
    i < tokens.length →
    Ends (fuel < 2 * (tokens.length - i) + 1) (StopsFrom tokens i (· = .closeBrace))
      (Indexed.statements tokens fuel depth opening done i)

namespace Advances

variable {fuel i : Nat} {depth : Int}

theorem operands_succ (ih : Advances tokens fuel) (hinput : EndsInput tokens) {chain : Expr}
    (hi : i < tokens.length) :
    Ends (fuel + 1 < 2 * (tokens.length - i)) (StopsFrom tokens i fun lexeme => lexeme.endsGroup)
      (Indexed.operands tokens (fuel + 1) depth chain i) := by
  obtain ⟨token, htoken⟩ : ∃ token, tokens[i]? = some token := ⟨_, List.getElem?_eq_getElem hi⟩
  -- the readings that follow a token start ahead of it, with fuel for all tokens from there on
  have hahead {depth : Int} {chain : Expr} {j : Nat} (hij : i < j) (hj : j < tokens.length) :
      Ends (fuel + 1 < 2 * (tokens.length - i))
        (StopsFrom tokens j fun lexeme => lexeme.endsGroup)
        (Indexed.operands tokens fuel depth chain j) :=
    (ih.operands hj).weaken (by omega)
  rw [Indexed.operands, if_pos hi, tokenAt_bind htoken]
  rcases token.lexeme.kinds with hends | ⟨bits, hlex⟩ | hlex | hlex | hlex | hlex | hlex
  · have hstop : StopsFrom tokens i (fun lexeme => lexeme.endsGroup) (chain, i) :=
      ⟨Nat.le_refl i, token, htoken, hends⟩
    rcases Lexeme.cases_of_endsGroup hends with hlex | hlex | hlex | hlex | hlex <;>
      simp only [hlex] <;> exact .value hstop
  · have hnext := hinput.succ_lt htoken (by simp [hlex])
    simp only [hlex]
    exact (hahead (Nat.lt_succ_self i) hnext).imp fun _ h => h.mono (Nat.le_succ i)
  · have hnext := hinput.succ_lt htoken (by simp [hlex])
    simp only [hlex]
    exact (hahead (Nat.lt_succ_self i) hnext).imp fun _ h => h.mono (Nat.le_succ i)
  · have hnext := hinput.succ_lt htoken (by simp [hlex])
    simp only [hlex]
    refine (ends_checkDepth hinput.ne_nil _ _).bind fun _ _ => ?_
    refine (hahead (Nat.lt_succ_self i) hnext).bind ?_
    rintro ⟨inner, j⟩ ⟨hij, stop, hstop, -⟩
    dsimp only at hij hstop ⊢
    rw [tokenAt_bind hstop]
    cases hclose : stop.lexeme with
    | closeParen =>
        have hbehind := hinput.succ_lt hstop (by simp [hclose])
        exact (hahead (by omega) hbehind).imp fun _ h => h.mono (by omega)
    | _ => exact ends_reject _ _
  · have hnext := hinput.succ_lt htoken (by simp [hlex])
    simp only [hlex]
    rw [tokenBefore, tokenAt_bind htoken]
    refine (ends_checkDepth hinput.ne_nil _ _).bind fun _ _ => ?_
    refine ((ih.statements hnext).weaken (by omega)).bind ?_
    rintro ⟨inner, j⟩ ⟨hij, stop, hstop, hclose⟩
    dsimp only at hij hstop ⊢
    have hbehind := hinput.succ_lt hstop (by simp [hclose])
    exact (hahead (by omega) hbehind).imp fun _ h => h.mono (by omega)
  · have hnext := hinput.succ_lt htoken (by simp [hlex])
    simp only [hlex]
    refine (ends_checkDepth hinput.ne_nil _ _).bind fun _ _ => ?_
    refine (hahead (Nat.lt_succ_self i) hnext).bind ?_
    rintro ⟨body, j⟩ ⟨hij, stop, hstop, -⟩
    dsimp only at hij hstop ⊢
    obtain ⟨hj, -⟩ := List.getElem?_eq_some_iff.mp hstop
    rw [tokenAt_bind hstop]
    exact (hahead (by omega) hj).imp fun _ h => h.mono (by omega)
  · rcases hlex with hlex | ⟨code, hlex⟩ <;> simp only [hlex] <;> exact ends_reject _ _

theorem statements_succ (ih : Advances tokens fuel) (hinput : EndsInput tokens) {opening : Token}
    {done : Statements} (hi : i < tokens.length) :
    Ends (fuel + 1 < 2 * (tokens.length - i) + 1) (StopsFrom tokens i (· = .closeBrace))
      (Indexed.statements tokens (fuel + 1) depth opening done i) := by
  rw [Indexed.statements]
  refine (ends_checkDepth hinput.ne_nil _ _).bind fun _ _ => ?_
  refine ((ih.operands hi).weaken (by omega)).bind ?_
  rintro ⟨value, j⟩ ⟨hij, stop, hstop, -⟩
  dsimp only at hij hstop ⊢
  rw [tokenAt_bind hstop]
  -- the next statement starts behind the mark
  have hnext {done : Statements} (hmore : stop.lexeme ≠ .endOfInput) :
      Ends (fuel + 1 < 2 * (tokens.length - i) + 1) (StopsFrom tokens i (· = .closeBrace))
        (Indexed.statements tokens fuel depth opening done (j + 1)) :=
    ((ih.statements (hinput.succ_lt hstop hmore)).weaken (by omega)).imp fun _ h =>
      h.mono (by omega)
  cases hlex : stop.lexeme with
  | endOfInput => exact ends_reject _ _
  | closeParen => exact ends_reject _ _
  | closeBrace => exact .value ⟨hij, stop, hstop, hlex⟩
  | equals =>
      cases value.isAbsent with
      | true => exact ends_reject _ _
      | false => exact hnext (by simp [hlex])
  | _ => exact hnext (by simp [hlex])

end Advances

/-- Readings of tokens that close with the end of the input move forward. -/
theorem advances (hinput : EndsInput tokens) (fuel : Nat) : Advances tokens fuel := by
  induction fuel with
  | zero =>
      refine ⟨fun hi => ?_, fun hi => ?_⟩
      · rw [Indexed.operands]
        exact .endless (by omega)
      · rw [Indexed.statements]
        exact .endless (by omega)
  | succ fuel ih =>
      exact ⟨ih.operands_succ hinput, ih.statements_succ hinput⟩

/-! ## More fuel -/

/-- The second reading is the first, or the first ran out of fuel. -/
inductive Extends : Indexed α → Indexed α → Prop
  | endless (y : Indexed α) : Extends (.mk (some (.error .endless))) y
  | refl (x : Indexed α) : Extends x x

theorem Extends.bind {x y : Indexed α} {f g : α → Indexed β} (h : Extends x y)
    (hnext : ∀ a, Extends (f a) (g a)) : Extends (x >>= f) (y >>= g) := by
  cases h with
  | endless y => exact .endless _
  | refl x =>
      match x with
      | .mk none => exact .refl _
      | .mk (some (.error error)) => exact .refl _
      | .mk (some (.ok a)) => exact hnext a

theorem Extends.run_eq {x y : Indexed α} (h : Extends x y)
    (hx : x.run ≠ some (.error .endless)) : y.run = x.run := by
  cases h with
  | endless y => exact absurd rfl hx
  | refl x => rfl

/-- Readings with more fuel than this end as they do with this much, if that is enough. -/
structure Sufficient (tokens : List Token) (fuel : Nat) : Prop where
  operands : ∀ {more : Nat} {depth : Int} {chain : Expr} {i : Nat}, fuel ≤ more →
    Extends (Indexed.operands tokens fuel depth chain i)
      (Indexed.operands tokens more depth chain i)
  statements : ∀ {more : Nat} {depth : Int} {opening : Token} {done : Statements} {i : Nat},
    fuel ≤ more →
    Extends (Indexed.statements tokens fuel depth opening done i)
      (Indexed.statements tokens more depth opening done i)

namespace Sufficient

variable {fuel more i : Nat} {depth : Int}

theorem operands_succ (ih : Sufficient tokens fuel) (hle : fuel ≤ more) {chain : Expr} :
    Extends (Indexed.operands tokens (fuel + 1) depth chain i)
      (Indexed.operands tokens (more + 1) depth chain i) := by
  rw [Indexed.operands, Indexed.operands]
  split
  · refine (Extends.refl _).bind fun token => ?_
    cases token.lexeme with
    | literal bits => exact ih.operands hle
    | scope => exact ih.operands hle
    | openParen =>
        refine (Extends.refl _).bind fun _ => (ih.operands hle).bind fun found => ?_
        refine (Extends.refl _).bind fun stop => ?_
        cases stop.lexeme with
        | closeParen => exact ih.operands hle
        | _ => exact .refl _
    | openBrace =>
        refine (Extends.refl _).bind fun opening => (Extends.refl _).bind fun _ => ?_
        exact (ih.statements hle).bind fun found => ih.operands hle
    | colon =>
        refine (Extends.refl _).bind fun _ => (ih.operands hle).bind fun found => ?_
        exact (Extends.refl _).bind fun stop => ih.operands hle
    | _ => exact .refl _
  · exact .refl _

theorem statements_succ (ih : Sufficient tokens fuel) (hle : fuel ≤ more) {opening : Token}
    {done : Statements} :
    Extends (Indexed.statements tokens (fuel + 1) depth opening done i)
      (Indexed.statements tokens (more + 1) depth opening done i) := by
  rw [Indexed.statements, Indexed.statements]
  refine (Extends.refl _).bind fun _ => (ih.operands hle).bind fun found => ?_
  refine (Extends.refl _).bind fun stop => ?_
  cases stop.lexeme with
  | endOfInput | closeParen | closeBrace => exact .refl _
  | equals =>
      cases found.1.isAbsent with
      | true => exact .refl _
      | false => exact ih.statements hle
  | _ => exact ih.statements hle

end Sufficient

theorem sufficient (tokens : List Token) (fuel : Nat) : Sufficient tokens fuel := by
  induction fuel with
  | zero =>
      refine ⟨fun _ => ?_, fun _ => ?_⟩
      · rw [Indexed.operands]
        exact .endless _
      · rw [Indexed.statements]
        exact .endless _
  | succ fuel ih =>
      refine ⟨fun {more _ _ _} hle => ?_, fun {more _ _ _ _} hle => ?_⟩ <;>
        obtain ⟨more, rfl⟩ : ∃ less, more = less + 1 := ⟨more - 1, by omega⟩
      · exact ih.operands_succ (by omega)
      · exact ih.statements_succ (by omega)

/-! ## The readings of a group, of a set and of the whole input -/

/-- The reading ends, in the same way with this much fuel or more, and lacks no position. -/
def Settles (reading : Nat → Indexed α) (ample : Nat) : Prop :=
  ∃ outcome, outcome ≠ .error .endless ∧ ∀ fuel, ample ≤ fuel →
    (reading fuel).run = some outcome

theorem settles_of_ends {short : Nat → Prop} {good : α → Prop} {reading : Nat → Indexed α}
    {ample : Nat} (hends : ∀ fuel, Ends (short fuel) good (reading fuel)) (hample : ¬short ample)
    (hextends : ∀ more, ample ≤ more → Extends (reading ample) (reading more)) :
    Settles reading ample := by
  have hrun := (hends ample).run_ne_endless hample
  obtain ⟨outcome, houtcome⟩ := Option.ne_none_iff_exists'.mp (hends ample).run_ne_none
  refine ⟨outcome, ?_, fun fuel hfuel => ?_⟩
  · rintro rfl
    exact hrun houtcome
  · rw [(hextends fuel hfuel).run_eq hrun, houtcome]

section Readings

variable {fuel more start : Nat} {depth : Int}

theorem ends_group (hinput : EndsInput tokens) (hstart : start < tokens.length) :
    Ends (fuel < 2 * tokens.length) (StopsFrom tokens start fun lexeme => lexeme.endsGroup)
      (group tokens fuel start depth) :=
  (ends_checkDepth hinput.ne_nil depth start).bind fun _ _ =>
    ((advances hinput fuel).operands hstart).weaken (by omega)

theorem group_extends (hle : fuel ≤ more) :
    Extends (group tokens fuel start depth) (group tokens more start depth) :=
  (Extends.refl _).bind fun _ => (sufficient tokens fuel).operands hle

/-- Behind the end of the list a group stops at once, at the last token. -/
theorem ends_operands_length {chain : Expr} :
    Ends (fuel < 1) (·.2 = tokens.length - 1)
      (operands tokens fuel depth chain tokens.length) := by
  cases fuel with
  | zero =>
      rw [operands]
      exact .endless Nat.zero_lt_one
  | succ fuel =>
      rw [operands, if_neg (Nat.lt_irrefl _)]
      exact .value rfl

/-- A set that is opened by the last token is never closed. -/
theorem ends_statements_length (hinput : EndsInput tokens) {opening : Token} {done : Statements} :
    Ends (fuel < 2) (fun _ => False)
      (statements tokens fuel depth opening done tokens.length) := by
  cases fuel with
  | zero =>
      rw [statements]
      exact .endless Nat.zero_lt_two
  | succ fuel =>
      rw [statements]
      refine (ends_checkDepth hinput.ne_nil depth _).bind fun _ _ => ?_
      refine (ends_operands_length.weaken (by omega)).bind ?_
      rintro ⟨value, j⟩ rfl
      obtain ⟨last, hlast, hend⟩ := hinput
      rw [List.getLast?_eq_getElem?] at hlast
      dsimp only
      rw [tokenAt_bind hlast, hend]
      exact ends_reject _ _

theorem ends_groupSet (hinput : EndsInput tokens) (hpos : 0 < start)
    (hstart : start ≤ tokens.length) :
    Ends (fuel < 2 * tokens.length + 1) (StopsFrom tokens start (· = .closeBrace))
      (groupSet tokens fuel start depth) := by
  obtain ⟨before, rfl⟩ := Nat.exists_eq_add_of_le' hpos
  rw [groupSet, tokenBefore, tokenAt_bind (List.getElem?_eq_getElem hstart)]
  refine (ends_checkDepth hinput.ne_nil depth _).bind fun _ _ => ?_
  rcases Nat.lt_or_eq_of_le hstart with hlt | heq
  · exact ((advances hinput fuel).statements hlt).weaken (by omega)
  · rw [heq]
    exact ((ends_statements_length hinput).weaken (by omega)).imp fun _ => False.elim

theorem groupSet_extends (hle : fuel ≤ more) :
    Extends (groupSet tokens fuel start depth) (groupSet tokens more start depth) :=
  (Extends.refl _).bind fun _ => (Extends.refl _).bind fun _ =>
    (sufficient tokens fuel).statements hle

/-- A set has an opening brace before it. -/
theorem bounds_of_groupSet {found : Expr × Nat}
    (h : (groupSet tokens fuel start depth).run = some (.ok found)) :
    0 < start ∧ start ≤ tokens.length := by
  rw [groupSet] at h
  cases start with
  | zero => cases h
  | succ before =>
      refine ⟨Nat.succ_pos before, ?_⟩
      by_contra hle
      rw [tokenBefore, tokenAt, List.getElem?_eq_none (by omega)] at h
      cases h

theorem expression_extends (hle : fuel ≤ more) :
    Extends (expression tokens fuel) (expression tokens more) :=
  (group_extends hle).bind fun _ => .refl _

theorem ends_expression (hinput : EndsInput tokens) :
    Ends (fuel < 2 * tokens.length) (fun _ => True) (expression tokens fuel) := by
  refine (ends_group hinput (List.length_pos_iff.mpr hinput.ne_nil)).bind ?_
  rintro ⟨tree, i⟩ ⟨-, stop, hstop, -⟩
  dsimp only at hstop ⊢
  rw [tokenAt_bind hstop]
  cases stop.lexeme with
  | endOfInput => exact .value trivial
  | _ => exact ends_reject _ _

theorem run_expression (hinput : EndsInput tokens) (hfuel : 2 * tokens.length + 1 ≤ fuel) :
    (expression tokens fuel).run = some (Expr.ofTokens tokens) := by
  have hends : Ends (2 * tokens.length + 1 < 2 * tokens.length) (fun _ => True)
      (expression tokens (2 * tokens.length + 1)) := ends_expression hinput
  rw [(expression_extends hfuel).run_eq (hends.run_ne_endless (by omega))]
  exact (agrees_expression hinput.ne_nil).run_eq

end Readings

/-- Tokens that close with the end of the input are read to an end, by an amount of fuel that
depends on their number alone, and no position outside of them is used on the way.  A group that
is read ends at or behind its start, at a token that may end a group, and a set ends at a closing
brace.  The readings by position are those of the reader. -/
theorem readings_advance (hinput : EndsInput tokens) :
    (Expr.ofTokens tokens ≠ .error .endless ∧ ∀ fuel, 2 * tokens.length + 1 ≤ fuel →
      (expression tokens fuel).run = some (Expr.ofTokens tokens)) ∧
    (∀ (start : Nat) (depth : Int), start < tokens.length →
      Settles (fun fuel => group tokens fuel start depth) (2 * tokens.length) ∧
      (∀ fuel tree j, (group tokens fuel start depth).run = some (.ok (tree, j)) →
        start ≤ j ∧ ∃ hj : j < tokens.length, tokens[j].lexeme ∈
          [.endOfInput, .semicolon, .equals, .closeParen, .closeBrace])) ∧
    (∀ (start : Nat) (depth : Int),
      (0 < start → start ≤ tokens.length →
        Settles (fun fuel => groupSet tokens fuel start depth) (2 * tokens.length + 1)) ∧
      (∀ fuel tree j, (groupSet tokens fuel start depth).run = some (.ok (tree, j)) →
        start ≤ j ∧ ∃ hj : j < tokens.length, tokens[j].lexeme = .closeBrace)) ∧
    (∀ (start depth fuel : Nat) (hstart : start < tokens.length), depth ≤ maxNesting →
      (∀ last, Agrees (Locates tokens) (group tokens fuel start depth)
        (Parser.operands fuel depth .absent last (tokens.drop start))) ∧
      Agrees (Locates tokens) (groupSet tokens fuel (start + 1) depth)
        (Parser.statements fuel depth tokens[start] ⟨.absent, 0, #[]⟩ tokens[start]
          (tokens.drop (start + 1)))) := by
  refine ⟨⟨?_, fun fuel => run_expression hinput⟩, fun start depth hstart => ⟨?_, ?_⟩,
    fun start depth => ⟨fun hpos hstart => ?_, ?_⟩, fun start depth fuel hstart hdepth =>
    ⟨agrees_group hdepth hstart fuel, agrees_groupSet hdepth hstart fuel⟩⟩
  · intro hendless
    have hrun := run_expression hinput (Nat.le_refl _)
    rw [hendless] at hrun
    exact (ends_expression hinput).run_ne_endless (by omega) hrun
  · exact settles_of_ends (fun fuel => ends_group hinput hstart) (Nat.lt_irrefl _)
      fun more => group_extends
  · intro fuel tree j hrun
    obtain ⟨hle, token, htoken, hends⟩ := (ends_group hinput hstart).good_of_run hrun
    obtain ⟨hj, rfl⟩ := List.getElem?_eq_some_iff.mp htoken
    exact ⟨hle, hj, by simpa using Lexeme.cases_of_endsGroup hends⟩
  · exact settles_of_ends (fun fuel => ends_groupSet hinput hpos hstart) (Nat.lt_irrefl _)
      fun more => groupSet_extends
  · intro fuel tree j hrun
    obtain ⟨hpos, hstart⟩ := bounds_of_groupSet hrun
    obtain ⟨hle, token, htoken, hclose⟩ := (ends_groupSet hinput hpos hstart).good_of_run hrun
    obtain ⟨hj, rfl⟩ := List.getElem?_eq_some_iff.mp htoken
    exact ⟨hle, hj, hclose⟩

/-- The tokens of a set with a function in it, closed by the end of the input; a fault and another
end stand behind it. -/
def functionInSet : List Token :=
  [⟨.openBrace, utf8 "\x7b", ⟨0, 1, 1⟩⟩, ⟨.colon, utf8 ":", ⟨1, 1, 2⟩⟩,
    ⟨.scope, utf8 "$", ⟨2, 1, 3⟩⟩, ⟨.semicolon, utf8 ";", ⟨3, 1, 4⟩⟩,
    ⟨.closeBrace, utf8 "\x7d", ⟨4, 1, 5⟩⟩, ⟨.endOfInput, [], ⟨5, 1, 6⟩⟩,
    ⟨.fault, utf8 "unexpected character", ⟨5, 1, 6⟩⟩, ⟨.endOfInput, [], ⟨5, 1, 6⟩⟩]

theorem readings_advance_functionInSet :
    EndsInput functionInSet ∧
    Expr.ofTokens functionInSet ≠ .error .endless ∧
    (∃ tree, (groupSet functionInSet 17 1 (-1)).run = some (.ok (tree, 4))) ∧
    functionInSet[4]?.map Token.lexeme = some .closeBrace ∧
    (∃ tree, (group functionInSet 16 1 0).run = some (.ok (tree, 3))) ∧
    Settles (fun fuel => group functionInSet fuel 6 maxNesting) 16 := by
  have hinput : EndsInput functionInSet := ⟨_, rfl, rfl⟩
  obtain ⟨⟨hends, -⟩, hgroups, hsets, -⟩ := readings_advance hinput
  have hset : ∃ tree, (groupSet functionInSet 17 1 (-1)).run = some (.ok (tree, 4)) := ⟨_, rfl⟩
  obtain ⟨tree, hrun⟩ := hset
  obtain ⟨-, hj, hclose⟩ := (hsets 1 (-1)).2 17 tree 4 hrun
  refine ⟨hinput, hends, ⟨tree, hrun⟩, ?_, ⟨_, rfl⟩, (hgroups 6 maxNesting (by decide)).1⟩
  rw [List.getElem?_eq_getElem hj, Option.map_some, hclose]

end BitLang.Parser.Indexed
