/-
# Reading expressions, index by index

The reader of expressions is given here once more with every index it uses spelled out.  It keeps
the whole list of tokens and reads it at positions: a group starts at one position and tells the
position of the token that ended it, a set looks one position back for its opening brace, and a
nesting that is too deep is reported at the position reached or at the last one.  A position
outside of the list leaves a reading without any result.

With the same fuel, the readings of any list but the empty one are those of the reader
(`agrees`).  Depths are integers here, since nothing keeps a group from being read at a depth
below zero.
-/

import BitLang.Proofs.Expr.Steps

namespace BitLang.Parser

/-- A reading that stops without any result where a position is out of range. -/
abbrev Indexed := ExceptT ParseError Option

namespace Indexed

section Reader

variable (tokens : List Token)

/-- What comes of something that uses no position. -/
def ofExcept {α : Type} (x : Except ParseError α) : Indexed α := .mk (some x)

/-- The token at a position. -/
def tokenAt (i : Nat) : Indexed Token := .mk (tokens[i]?.map .ok)

/-- The token before a position; there is none before the first. -/
def tokenBefore : Nat → Indexed Token
  | 0 => .mk none
  | i + 1 => tokenAt tokens i

/-- Accepts a nesting depth within the bound.  One that is not is reported at a position, or at
the last one if that lies behind the end. -/
def checkDepthAt (depth : Int) (i : Nat) : Indexed Unit :=
  if maxNesting < depth then do
    let token ← tokenAt tokens (if tokens.length ≤ i then tokens.length - 1 else i)
    ofExcept (reject token.pos .tooDeep)
  else pure ()

mutual

/-- Reads operands from a position on, onto `chain`, and tells the position of the token that
ended them. -/
def operands : (fuel : Nat) → (depth : Int) → (chain : Expr) → (i : Nat) → Indexed (Expr × Nat)
  | 0, _, _, _ => ofExcept (.error .endless)
  | fuel + 1, depth, chain, i =>
    if i < tokens.length then do
      let token ← tokenAt tokens i
      match token.lexeme with
      | .literal bits =>
        operands fuel depth (chain.follow (.literal token.span bits) token.pos) (i + 1)
      | .scope => operands fuel depth (chain.follow (.scope token.span) token.pos) (i + 1)
      | .endOfInput | .semicolon | .equals | .closeParen | .closeBrace => pure (chain, i)
      | .openParen => do
        checkDepthAt tokens (depth + 1) (i + 1)
        let (inner, j) ← operands fuel (depth + 1) .absent (i + 1)
        let stop ← tokenAt tokens j
        match stop.lexeme with
        | .closeParen => operands fuel depth (chain.follow inner token.pos) (j + 1)
        | .endOfInput => ofExcept (reject token.pos .unclosedParen)
        | found => ofExcept (reject stop.pos (.expectedCloseParen found))
      | .openBrace => do
        let opening ← tokenBefore tokens (i + 1)
        checkDepthAt tokens (depth + 1) i
        let (inner, j) ← statements fuel (depth + 1) opening ⟨.absent, 0, #[]⟩ (i + 1)
        operands fuel depth (chain.follow inner token.pos) (j + 1)
      | .colon => do
        checkDepthAt tokens (depth + 1) (i + 1)
        let (body, j) ← operands fuel (depth + 1) .absent (i + 1)
        let stop ← tokenAt tokens j
        -- the token that ended the body is seen again
        operands fuel depth (functionOf chain token ⟨body, stop, []⟩) j
      | .fault | .unassigned _ => ofExcept (reject token.pos (.unexpectedToken token))
    else pure (chain, tokens.length - 1)

/-- Reads the statements of a set from a position on, and tells the position of its closing
brace. -/
def statements : (fuel : Nat) → (depth : Int) → (opening : Token) → Statements → (i : Nat) →
    Indexed (Expr × Nat)
  | 0, _, _, _, _ => ofExcept (.error .endless)
  | fuel + 1, depth, opening, done, i => do
    checkDepthAt tokens depth i
    let (value, j) ← operands fuel depth .absent i
    let stop ← tokenAt tokens j
    match stop.lexeme with
    | .endOfInput => ofExcept (reject opening.pos .unterminatedSet)
    | .closeParen => ofExcept (reject stop.pos .closeParenInSet)
    | .equals =>
      if value.isAbsent then ofExcept (reject stop.pos .missingKey)
      else statements fuel depth opening { done with key := value } (j + 1)
    | .semicolon => statements fuel depth opening (done.close value) (j + 1)
    | .closeBrace =>
      pure (.set ⟨opening.pos, stop.stop⟩ (done.close value).entries.toList, j)
    | _ => statements fuel depth opening done (j + 1)

end

/-- Reads the group that starts at a position. -/
def group (fuel start : Nat) (depth : Int) : Indexed (Expr × Nat) := do
  checkDepthAt tokens depth start
  operands tokens fuel depth .absent start

/-- Reads the set whose statements start at a position, behind its opening brace. -/
def groupSet (fuel start : Nat) (depth : Int) : Indexed (Expr × Nat) := do
  let opening ← tokenBefore tokens start
  checkDepthAt tokens depth (start - 1)
  statements tokens fuel depth opening ⟨.absent, 0, #[]⟩ start

/-- Reads the whole list as one expression. -/
def expression (fuel : Nat) : Indexed Expr := do
  let (tree, i) ← group tokens fuel 0 0
  let stop ← tokenAt tokens i
  match stop.lexeme with
  | .endOfInput => pure tree
  | found => ofExcept (reject stop.pos (.strayTerminator found))

end Reader

/-! ## The same readings -/

/-- Both readings fail with the same error, or end with results that are related. -/
inductive Agrees {α β : Type} (related : α → β → Prop) : Indexed α → Except ParseError β → Prop
  | error (error : ParseError) : Agrees related (.mk (some (.error error))) (.error error)
  | ok {a : α} {b : β} : related a b → Agrees related (.mk (some (.ok a))) (.ok b)

variable {α β γ δ : Type} {related : α → β → Prop} {x : Indexed α} {y : Except ParseError β}

theorem Agrees.bind {next : γ → δ → Prop} {f : α → Indexed γ} {g : β → Except ParseError δ}
    (h : Agrees related x y) (hnext : ∀ a b, related a b → Agrees next (f a) (g b)) :
    Agrees next (x >>= f) (y >>= g) := by
  cases h with
  | error error => exact .error error
  | ok hab => exact hnext _ _ hab

theorem Agrees.run_eq {x : Indexed α} {y : Except ParseError α} (h : Agrees Eq x y) :
    x.run = some y := by
  cases h with
  | error error => rfl
  | ok hab => exact hab ▸ rfl

theorem agrees_reject (pos : Position) (cause : SyntaxError.Cause) :
    Agrees related (ofExcept (reject pos cause)) (reject pos cause) := .error _

/-- A tree and a position are what was read of a group if the token that ended it stands there. -/
def Locates (tokens : List Token) (found : Expr × Nat) (group : Group) : Prop :=
  found.1 = group.tree ∧ tokens.drop found.2 = group.stop :: group.rest

section Tokens

variable {tokens rest : List Token} {token : Token} {i : Nat}

theorem tokenAt_bind (h : tokens[i]? = some token) (f : Token → Indexed α) :
    tokenAt tokens i >>= f = f token := by
  rw [tokenAt, h]
  rfl

theorem getElem?_of_drop (h : tokens.drop i = token :: rest) : tokens[i]? = some token := by
  rw [← List.head?_drop, h, List.head?_cons]

theorem drop_succ_of_drop (h : tokens.drop i = token :: rest) : tokens.drop (i + 1) = rest := by
  rw [← List.drop_drop, h, List.drop_succ_cons, List.drop_zero]

/-- The token before the end of the list is the last one. -/
theorem drop_last_of_drop (h : tokens.drop i = token :: rest) (hend : tokens.drop (i + 1) = []) :
    tokens.drop (tokens.length - 1) = [token] := by
  have hlength := congrArg List.length h
  rw [drop_succ_of_drop h] at hend
  rw [hend, List.length_drop, List.length_singleton] at hlength
  have hi : tokens.length - 1 = i := by omega
  rw [hi, h, hend]

theorem checkDepthAt_of_le {depth : Int} (h : depth ≤ maxNesting) (i : Nat) :
    checkDepthAt tokens depth i = pure () := by
  rw [checkDepthAt, if_neg (Int.not_lt.mpr h)]

/-- The token at a position, or the last one behind the end, stands where it is said to. -/
theorem agrees_checkDepth {depth : Nat} {pos : Position}
    (h : tokens[if tokens.length ≤ i then tokens.length - 1 else i]? = some token)
    (hpos : token.pos = pos) :
    Agrees (fun _ _ => depth ≤ maxNesting) (checkDepthAt tokens depth i)
      (checkDepth depth pos) := by
  rw [checkDepthAt, checkDepth]
  by_cases hdepth : maxNesting < depth
  · rw [if_pos hdepth, if_pos (Int.ofNat_lt.mpr hdepth), tokenAt_bind h, hpos]
    exact agrees_reject pos _
  · rw [if_neg hdepth, if_neg (fun hlt => hdepth (Int.ofNat_lt.mp hlt))]
    exact .ok (Nat.not_lt.mp hdepth)

/-- Behind an opening mark, a nesting that is too deep is reported at the token that comes next. -/
theorem agrees_checkDepth_next {depth : Nat} (h : tokens.drop i = token :: rest) :
    Agrees (fun _ _ => depth ≤ maxNesting) (checkDepthAt tokens depth (i + 1))
      (checkDepth depth (nextPos token rest)) := by
  have hrest := drop_succ_of_drop h
  cases rest with
  | nil =>
      have hlength : tokens.length ≤ i + 1 := List.drop_eq_nil_iff.mp hrest
      refine agrees_checkDepth ?_ rfl
      rw [if_pos hlength]
      exact getElem?_of_drop (drop_last_of_drop h hrest)
  | cons next rest =>
      have hlength : ¬tokens.length ≤ i + 1 := by
        intro hle
        rw [List.drop_eq_nil_of_le hle] at hrest
        cases hrest
      refine agrees_checkDepth ?_ rfl
      rw [if_neg hlength]
      exact getElem?_of_drop hrest

end Tokens

/-- With so much fuel, readings from a position on are readings of the tokens from there on. -/
structure AgreesWith (tokens : List Token) (fuel : Nat) : Prop where
  operands : ∀ {depth : Nat} {chain : Expr} {last : Token} {i : Nat},
    (tokens.drop i = [] → tokens.drop (tokens.length - 1) = [last]) →
    Agrees (Locates tokens) (Indexed.operands tokens fuel depth chain i)
      (Parser.operands fuel depth chain last (tokens.drop i))
  statements : ∀ {depth : Nat} {opening : Token} {done : Statements} {last : Token} {i : Nat},
    depth ≤ maxNesting → (tokens.drop i = [] → tokens.drop (tokens.length - 1) = [last]) →
    Agrees (Locates tokens) (Indexed.statements tokens fuel depth opening done i)
      (Parser.statements fuel depth opening done last (tokens.drop i))

namespace AgreesWith

variable {tokens : List Token} {fuel depth : Nat} {last : Token} {i : Nat}

theorem operands_succ (ih : AgreesWith tokens fuel) {chain : Expr}
    (hlast : tokens.drop i = [] → tokens.drop (tokens.length - 1) = [last]) :
    Agrees (Locates tokens) (Indexed.operands tokens (fuel + 1) depth chain i)
      (Parser.operands (fuel + 1) depth chain last (tokens.drop i)) := by
  have hdeeper : (depth : Int) + 1 = ((depth + 1 : Nat) : Int) := rfl
  rw [Indexed.operands]
  cases hdrop : tokens.drop i with
  | nil =>
      rw [if_neg (Nat.not_lt.mpr (List.drop_eq_nil_iff.mp hdrop)), Parser.operands]
      exact .ok ⟨rfl, hlast hdrop⟩
  | cons token rest =>
      have hi : i < tokens.length := by
        by_contra hle
        rw [List.drop_eq_nil_of_le (Nat.not_lt.mp hle)] at hdrop
        cases hdrop
      have hrest := drop_succ_of_drop hdrop
      have hnext := drop_last_of_drop hdrop
      rw [if_pos hi, tokenAt_bind (getElem?_of_drop hdrop), Parser.operands, hdeeper]
      -- the readings that follow start behind this token
      subst hrest
      cases hlex : token.lexeme with
      | literal bits => exact ih.operands hnext
      | scope => exact ih.operands hnext
      | endOfInput => exact .ok ⟨rfl, hdrop⟩
      | semicolon => exact .ok ⟨rfl, hdrop⟩
      | equals => exact .ok ⟨rfl, hdrop⟩
      | closeParen => exact .ok ⟨rfl, hdrop⟩
      | closeBrace => exact .ok ⟨rfl, hdrop⟩
      | fault => exact agrees_reject _ _
      | unassigned code => exact agrees_reject _ _
      | openParen =>
          refine (agrees_checkDepth_next hdrop).bind fun _ _ hdepth => ?_
          refine (ih.operands hnext).bind ?_
          rintro ⟨inner, j⟩ ⟨tree, stop, after⟩ ⟨rfl, hj⟩
          dsimp only at hj ⊢
          rw [tokenAt_bind (getElem?_of_drop hj)]
          have hafter := drop_succ_of_drop hj
          subst hafter
          cases hstop : stop.lexeme with
          | closeParen => exact ih.operands (drop_last_of_drop hj)
          | _ => exact agrees_reject _ _
      | openBrace =>
          dsimp only
          rw [tokenBefore, tokenAt_bind (getElem?_of_drop hdrop)]
          have hopening : tokens[if tokens.length ≤ i then tokens.length - 1 else i]? =
              some token := by
            rw [if_neg (Nat.not_le.mpr hi)]
            exact getElem?_of_drop hdrop
          refine (agrees_checkDepth hopening rfl).bind fun _ _ hdepth => ?_
          refine (ih.statements hdepth hnext).bind ?_
          rintro ⟨inner, j⟩ ⟨tree, stop, after⟩ ⟨rfl, hj⟩
          have hafter := drop_succ_of_drop hj
          subst hafter
          exact ih.operands (drop_last_of_drop hj)
      | colon =>
          refine (agrees_checkDepth_next hdrop).bind fun _ _ hdepth => ?_
          refine (ih.operands hnext).bind ?_
          rintro ⟨body, j⟩ ⟨tree, stop, after⟩ ⟨rfl, hj⟩
          dsimp only at hj ⊢
          rw [tokenAt_bind (getElem?_of_drop hj)]
          rw [← hj]
          refine ih.operands fun hnil => ?_
          rw [hnil] at hj
          cases hj

theorem statements_succ (ih : AgreesWith tokens fuel) {opening : Token} {done : Statements}
    (hdepth : depth ≤ maxNesting)
    (hlast : tokens.drop i = [] → tokens.drop (tokens.length - 1) = [last]) :
    Agrees (Locates tokens) (Indexed.statements tokens (fuel + 1) depth opening done i)
      (Parser.statements (fuel + 1) depth opening done last (tokens.drop i)) := by
  rw [Indexed.statements, checkDepthAt_of_le (Int.ofNat_le.mpr hdepth), Parser.statements]
  refine (ih.operands hlast).bind ?_
  rintro ⟨value, j⟩ ⟨tree, stop, after⟩ ⟨rfl, hj⟩
  dsimp only at hj ⊢
  rw [tokenAt_bind (getElem?_of_drop hj)]
  have hafter := drop_succ_of_drop hj
  have hnext := drop_last_of_drop hj
  subst hafter
  cases hstop : stop.lexeme with
  | endOfInput => exact agrees_reject _ _
  | closeParen => exact agrees_reject _ _
  | semicolon => exact ih.statements hdepth hnext
  | closeBrace => exact .ok ⟨rfl, hj⟩
  | equals =>
      cases hvalue : value.isAbsent with
      | true => exact agrees_reject _ _
      | false => exact ih.statements hdepth hnext
  | _ => exact ih.statements hdepth hnext

end AgreesWith

/-- With any fuel the readings by position are the readings of the tokens. -/
theorem agrees (tokens : List Token) (fuel : Nat) : AgreesWith tokens fuel := by
  induction fuel with
  | zero =>
      refine ⟨fun _ => ?_, fun _ _ => ?_⟩
      · rw [Indexed.operands, Parser.operands]
        exact .error _
      · rw [Indexed.statements, Parser.statements]
        exact .error _
  | succ fuel ih => exact ⟨ih.operands_succ, ih.statements_succ⟩

section Readings

variable {tokens : List Token} {start : Nat} {depth : Nat}

/-- A group that starts at a token is read as the same group by position. -/
theorem agrees_group (hdepth : depth ≤ maxNesting) (hstart : start < tokens.length) (fuel : Nat)
    (last : Token) :
    Agrees (Locates tokens) (group tokens fuel start depth)
      (Parser.operands fuel depth .absent last (tokens.drop start)) := by
  rw [group, checkDepthAt_of_le (Int.ofNat_le.mpr hdepth)]
  refine (agrees tokens fuel).operands fun hnil => ?_
  exact absurd (List.drop_eq_nil_iff.mp hnil) (Nat.not_le.mpr hstart)

/-- A set that is opened by a token is read as the same set by position. -/
theorem agrees_groupSet (hdepth : depth ≤ maxNesting) (hstart : start < tokens.length)
    (fuel : Nat) :
    Agrees (Locates tokens) (groupSet tokens fuel (start + 1) depth)
      (Parser.statements fuel depth tokens[start] ⟨.absent, 0, #[]⟩ tokens[start]
        (tokens.drop (start + 1))) := by
  rw [groupSet, tokenBefore, tokenAt_bind (List.getElem?_eq_getElem hstart),
    checkDepthAt_of_le (Int.ofNat_le.mpr hdepth)]
  exact (agrees tokens fuel).statements hdepth
    (drop_last_of_drop (List.drop_eq_getElem_cons hstart))

/-- A list that is not empty is read as the same expression by position. -/
theorem agrees_expression (h : tokens ≠ []) :
    Agrees Eq (expression tokens (2 * tokens.length + 1)) (Expr.ofTokens tokens) := by
  cases hdrop : tokens.drop 0 with
  | nil => exact absurd hdrop h
  | cons first rest =>
      have htokens : tokens = first :: rest := hdrop
      have hread : Agrees (Locates tokens) (group tokens (2 * tokens.length + 1) 0 0)
          (Parser.operands (2 * tokens.length + 1) 0 .absent first tokens) :=
        agrees_group (Nat.zero_le _) (List.length_pos_iff.mpr h) _ first
      have hofTokens : Expr.ofTokens tokens =
          Parser.operands (2 * tokens.length + 1) 0 .absent first tokens >>= fun group =>
            match group.stop.lexeme with
            | .endOfInput => .ok group.tree
            | found => reject group.stop.pos (.strayTerminator found) := by
        rw [htokens]
        rfl
      rw [hofTokens, expression]
      refine hread.bind ?_
      rintro ⟨tree, i⟩ ⟨_, stop, after⟩ ⟨rfl, hi⟩
      dsimp only at hi ⊢
      rw [tokenAt_bind (getElem?_of_drop hi)]
      cases hstop : stop.lexeme with
      | endOfInput => exact .ok rfl
      | _ => exact agrees_reject _ _

end Readings

end Indexed

end BitLang.Parser
