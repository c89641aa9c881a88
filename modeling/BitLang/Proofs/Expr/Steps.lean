/-
# Steps of the reader

The reader of expressions looks at one token after another.  What it does with a token
depends on the token's lexeme alone, and this module says so once for each kind of
lexeme: an operand goes onto the chain, a mark that ends a group ends it, and an opening
mark or a colon starts a reading of its own one level further down, unless that is too
deep.  Later proofs about the reader use these equations and do not unfold it.
-/

import BitLang.Proofs.Expr.Literals
import BitLang.Proofs.Value.Spans

namespace BitLang

@[simp]
theorem ok_bind {ε α β : Type} (a : α) (f : α → Except ε β) : (Except.ok a >>= f) = f a := rfl

/-- The lexeme ends a group: a closing mark, a mark between statements, or the end of the
input. -/
def Lexeme.endsGroup : Lexeme → Bool
  | endOfInput | semicolon | equals | closeParen | closeBrace => true
  | _ => false

/-- What a lexeme can be to the reader of a group. -/
theorem Lexeme.kinds (lexeme : Lexeme) :
    lexeme.endsGroup = true ∨ (∃ bits, lexeme = .literal bits) ∨ lexeme = .scope ∨
      lexeme = .openParen ∨ lexeme = .openBrace ∨ lexeme = .colon ∨ lexeme = .fault ∨
      ∃ code, lexeme = .unassigned code := by
  cases lexeme <;> simp [endsGroup]

/-- The marks that end a group. -/
theorem Lexeme.cases_of_endsGroup {lexeme : Lexeme} (h : lexeme.endsGroup = true) :
    lexeme = .endOfInput ∨ lexeme = .semicolon ∨ lexeme = .equals ∨ lexeme = .closeParen ∨
      lexeme = .closeBrace := by
  cases lexeme <;> simp_all [endsGroup]

namespace Expr

/-- A chain denotes nothing only if none of its operands denotes anything. -/
@[simp]
theorem isAbsent_follow (chain next : Expr) (pos : Position) :
    (chain.follow next pos).isAbsent = (chain.isAbsent && next.isAbsent) := by
  cases chain <;> rfl

@[simp]
theorem isAbsent_eraseSpans (e : Expr) : e.eraseSpans.isAbsent = e.isAbsent := by
  cases e <;> simp only [eraseSpans] <;> rfl

theorem isAbsent_iff {e : Expr} : e.isAbsent = true ↔ e = absent := by
  cases e <;> simp [isAbsent]

end Expr

namespace Parser

variable {fuel depth : Nat} {chain : Expr} {last token : Token} {rest : List Token}

theorem checkDepth_of_le (h : depth ≤ maxNesting) (pos : Position) :
    checkDepth depth pos = .ok () := by
  rw [checkDepth, if_neg (by omega)]

theorem checkDepth_of_lt (h : maxNesting < depth) (pos : Position) :
    checkDepth depth pos = reject pos .tooDeep := by
  rw [checkDepth, if_pos h]

theorem operands_literal {bits : BitSeq} (h : token.lexeme = .literal bits) :
    operands (fuel + 1) depth chain last (token :: rest) =
      operands fuel depth (chain.follow (.literal token.span bits) token.pos) token rest := by
  rw [operands, h]

theorem operands_scope (h : token.lexeme = .scope) :
    operands (fuel + 1) depth chain last (token :: rest) =
      operands fuel depth (chain.follow (.scope token.span) token.pos) token rest := by
  rw [operands, h]

theorem operands_endsGroup (h : token.lexeme.endsGroup = true) :
    operands (fuel + 1) depth chain last (token :: rest) = .ok ⟨chain, token, rest⟩ := by
  rw [operands]
  split <;> simp_all [Lexeme.endsGroup]

theorem operands_openParen (h : token.lexeme = .openParen) (hdepth : depth < maxNesting) :
    operands (fuel + 1) depth chain last (token :: rest) =
      operands fuel (depth + 1) .absent token rest >>= fun inner =>
        match inner.stop.lexeme with
        | .closeParen =>
          operands fuel depth (chain.follow inner.tree token.pos) inner.stop inner.rest
        | .endOfInput => reject token.pos .unclosedParen
        | found => reject inner.stop.pos (.expectedCloseParen found) := by
  rw [operands, h]
  simp only [checkDepth_of_le hdepth]
  rfl

theorem operands_openBrace (h : token.lexeme = .openBrace) (hdepth : depth < maxNesting) :
    operands (fuel + 1) depth chain last (token :: rest) =
      statements fuel (depth + 1) token ⟨.absent, 0, #[]⟩ token rest >>= fun inner =>
        operands fuel depth (chain.follow inner.tree token.pos) inner.stop inner.rest := by
  rw [operands, h]
  simp only [checkDepth_of_le hdepth, ok_bind]

/-- The function that a colon makes of the operand before it and of its body. -/
def functionOf (chain : Expr) (colon : Token) (body : Group) : Expr :=
  let start := (chain.splitLast.2.spanOr colon.pos).start
  chain.splitLast.1.follow
    (.function ⟨start, (body.tree.spanOr body.stop.pos).stop⟩ chain.splitLast.2 body.tree) start

theorem operands_colon (h : token.lexeme = .colon) (hdepth : depth < maxNesting) :
    operands (fuel + 1) depth chain last (token :: rest) =
      operands fuel (depth + 1) .absent token rest >>= fun body =>
        operands fuel depth (functionOf chain token body) token (body.stop :: body.rest) := by
  rw [operands, h]
  simp only [checkDepth_of_le hdepth, ok_bind, functionOf]

/-- A function denotes something, whatever is before it. -/
theorem isAbsent_functionOf (chain : Expr) (colon : Token) (body : Group) :
    (functionOf chain colon body).isAbsent = false := by
  rw [functionOf, Expr.isAbsent_follow]
  exact Bool.and_false _

/-- A parenthesis or a function that nests too deeply is reported where its inside begins. -/
theorem operands_tooDeep_inside (h : token.lexeme = .openParen ∨ token.lexeme = .colon)
    (hdepth : maxNesting ≤ depth) :
    operands (fuel + 1) depth chain last (token :: rest) =
      reject (nextPos token rest) .tooDeep := by
  have hcheck := checkDepth_of_lt (Nat.lt_succ_of_le hdepth)
  rcases h with h | h <;> rw [operands, h] <;> simp only [hcheck] <;> rfl

/-- A set that nests too deeply is reported where it opens. -/
theorem operands_tooDeep_brace (h : token.lexeme = .openBrace) (hdepth : maxNesting ≤ depth) :
    operands (fuel + 1) depth chain last (token :: rest) = reject token.pos .tooDeep := by
  rw [operands, h]
  simp only [checkDepth_of_lt (Nat.lt_succ_of_le hdepth)]
  rfl

theorem operands_tooDeep
    (h : token.lexeme = .openParen ∨ token.lexeme = .openBrace ∨ token.lexeme = .colon)
    (hdepth : maxNesting ≤ depth) :
    ∃ pos, operands (fuel + 1) depth chain last (token :: rest) = reject pos .tooDeep := by
  rcases h with h | h | h
  · exact ⟨_, operands_tooDeep_inside (.inl h) hdepth⟩
  · exact ⟨_, operands_tooDeep_brace h hdepth⟩
  · exact ⟨_, operands_tooDeep_inside (.inr h) hdepth⟩

theorem operands_unexpected (h : token.lexeme = .fault ∨ ∃ code, token.lexeme = .unassigned code) :
    operands (fuel + 1) depth chain last (token :: rest) =
      reject token.pos (.unexpectedToken token) := by
  rcases h with h | ⟨code, h⟩ <;> rw [operands, h]

/-! ## Readings that succeed -/

theorem exists_of_operands_openParen {group : Group} (h : token.lexeme = .openParen)
    (hok : operands (fuel + 1) depth chain last (token :: rest) = .ok group) :
    depth < maxNesting ∧ ∃ inner, operands fuel (depth + 1) .absent token rest = .ok inner ∧
      inner.stop.lexeme = .closeParen ∧
      operands fuel depth (chain.follow inner.tree token.pos) inner.stop inner.rest =
        .ok group := by
  by_cases hdepth : depth < maxNesting
  · rw [operands_openParen h hdepth] at hok
    obtain ⟨inner, hinner, hok⟩ := exists_of_bind_eq_ok hok
    split at hok
    · next hstop => exact ⟨hdepth, inner, hinner, hstop, hok⟩
    · cases hok
    · cases hok
  · obtain ⟨pos, htooDeep⟩ := operands_tooDeep (.inl h) (Nat.le_of_not_lt hdepth)
    cases htooDeep.symm.trans hok

theorem exists_of_operands_openBrace {group : Group} (h : token.lexeme = .openBrace)
    (hok : operands (fuel + 1) depth chain last (token :: rest) = .ok group) :
    depth < maxNesting ∧ ∃ inner,
      statements fuel (depth + 1) token ⟨.absent, 0, #[]⟩ token rest = .ok inner ∧
      operands fuel depth (chain.follow inner.tree token.pos) inner.stop inner.rest =
        .ok group := by
  by_cases hdepth : depth < maxNesting
  · rw [operands_openBrace h hdepth] at hok
    exact ⟨hdepth, exists_of_bind_eq_ok hok⟩
  · obtain ⟨pos, htooDeep⟩ := operands_tooDeep (.inr (.inl h)) (Nat.le_of_not_lt hdepth)
    cases htooDeep.symm.trans hok

theorem exists_of_operands_colon {group : Group} (h : token.lexeme = .colon)
    (hok : operands (fuel + 1) depth chain last (token :: rest) = .ok group) :
    depth < maxNesting ∧ ∃ body, operands fuel (depth + 1) .absent token rest = .ok body ∧
      operands fuel depth (functionOf chain token body) token (body.stop :: body.rest) =
        .ok group := by
  by_cases hdepth : depth < maxNesting
  · rw [operands_colon h hdepth] at hok
    exact ⟨hdepth, exists_of_bind_eq_ok hok⟩
  · obtain ⟨pos, htooDeep⟩ := operands_tooDeep (.inr (.inr h)) (Nat.le_of_not_lt hdepth)
    cases htooDeep.symm.trans hok

/-! ## Statements -/

/-- What comes after a statement: another one, or the end of the set. -/
def afterStatement (fuel depth : Nat) (opening : Token) (done : Statements) (stop : Token)
    (rest : List Token) : Except ParseError Group :=
  match stop.lexeme with
  | .semicolon => statements fuel depth opening done stop rest
  | _ => .ok ⟨.set ⟨opening.pos, stop.stop⟩ done.entries.toList, stop, rest⟩

theorem statements_key {opening : Token} {done : Statements} {tokens : List Token} {value : Group}
    (h : operands fuel depth .absent last tokens = .ok value) (hstop : value.stop.lexeme = .equals)
    (hvalue : value.tree.isAbsent = false) :
    statements (fuel + 1) depth opening done last tokens =
      statements fuel depth opening { done with key := value.tree } value.stop value.rest := by
  rw [statements, h, ok_bind]
  simp only [hstop, hvalue, Bool.false_eq_true, if_false]

theorem statements_value {opening : Token} {done : Statements} {tokens : List Token}
    {value : Group} (h : operands fuel depth .absent last tokens = .ok value)
    (hstop : value.stop.lexeme = .semicolon ∨ value.stop.lexeme = .closeBrace) :
    statements (fuel + 1) depth opening done last tokens =
      afterStatement fuel depth opening (done.close value.tree) value.stop value.rest := by
  rw [statements, h, ok_bind, afterStatement]
  rcases hstop with hstop | hstop <;> simp only [hstop]

end Parser

/-- Reading a whole list is reading a group that the end of the input must end. -/
theorem Expr.ofTokens_append_end (tokens : List Token) (stop : Token) :
    ∃ first, ofTokens (tokens ++ [stop]) =
      Parser.operands (2 * (tokens ++ [stop]).length + 1) 0 .absent first (tokens ++ [stop]) >>=
        fun group => match group.stop.lexeme with
          | .endOfInput => .ok group.tree
          | found => Parser.reject group.stop.pos (.strayTerminator found) := by
  cases tokens with
  | nil => exact ⟨stop, rfl⟩
  | cons token rest => exact ⟨token, rfl⟩

end BitLang
