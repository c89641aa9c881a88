/-
# Readings

A successful run of the reader is laid out here as a reading: which operand each token began, what
was read inside of it and what was read behind it.  Fuel, and the token that was read last, play no
part in a reading, and neither do the failures that a run may end with.

Every successful run over tokens that come to an end of the input has a reading
(`haveReadings`), so an invariant of the reader is shown once for each way in which a reading goes
on.  The last part does the same for whole token lists, of which only what comes before the first
end of the input is read.
-/

import BitLang.Proofs.Expr.Derivation

namespace BitLang.Parser

mutual

/-- Tokens are read onto a chain as a group. -/
inductive ReadsGroup : (depth : Nat) → (chain : Expr) → (tokens : List Token) → Group → Prop
  | stop {depth : Nat} {chain : Expr} {token : Token} {rest : List Token} :
      token.lexeme.endsGroup = true →
      ReadsGroup depth chain (token :: rest) ⟨chain, token, rest⟩
  | literal {depth : Nat} {chain : Expr} {token : Token} {rest : List Token} {bits : BitSeq}
      {group : Group} :
      token.lexeme = .literal bits →
      ReadsGroup depth (chain.follow (.literal token.span bits) token.pos) rest group →
      ReadsGroup depth chain (token :: rest) group
  | scope {depth : Nat} {chain : Expr} {token : Token} {rest : List Token} {group : Group} :
      token.lexeme = .scope →
      ReadsGroup depth (chain.follow (.scope token.span) token.pos) rest group →
      ReadsGroup depth chain (token :: rest) group
  | paren {depth : Nat} {chain : Expr} {token : Token} {rest : List Token} {inner group : Group} :
      token.lexeme = .openParen → depth < maxNesting →
      ReadsGroup (depth + 1) .absent rest inner → inner.stop.lexeme = .closeParen →
      ReadsGroup depth (chain.follow inner.tree token.pos) inner.rest group →
      ReadsGroup depth chain (token :: rest) group
  | set {depth : Nat} {chain : Expr} {token : Token} {rest : List Token} {inner group : Group} :
      token.lexeme = .openBrace → depth < maxNesting →
      ReadsSet (depth + 1) token ⟨.absent, 0, #[]⟩ rest inner →
      ReadsGroup depth (chain.follow inner.tree token.pos) inner.rest group →
      ReadsGroup depth chain (token :: rest) group
  | function {depth : Nat} {chain : Expr} {token : Token} {rest : List Token} {body : Group} :
      token.lexeme = .colon → depth < maxNesting →
      ReadsGroup (depth + 1) .absent rest body →
      ReadsGroup depth chain (token :: rest) ⟨functionOf chain token body, body.stop, body.rest⟩

/-- Tokens are read as the statements of a set, behind those that were read before. -/
inductive ReadsSet : (depth : Nat) → (opening : Token) → (done : Statements) →
    (tokens : List Token) → Group → Prop
  | key {depth : Nat} {opening : Token} {done : Statements} {tokens : List Token}
      {value group : Group} :
      ReadsGroup depth .absent tokens value → value.stop.lexeme = .equals →
      value.tree.isAbsent = false →
      ReadsSet depth opening { done with key := value.tree } value.rest group →
      ReadsSet depth opening done tokens group
  | next {depth : Nat} {opening : Token} {done : Statements} {tokens : List Token}
      {value group : Group} :
      ReadsGroup depth .absent tokens value → value.stop.lexeme = .semicolon →
      ReadsSet depth opening (done.close value.tree) value.rest group →
      ReadsSet depth opening done tokens group
  | last {depth : Nat} {opening : Token} {done : Statements} {tokens : List Token}
      {value : Group} :
      ReadsGroup depth .absent tokens value → value.stop.lexeme = .closeBrace →
      ReadsSet depth opening done tokens
        ⟨.set ⟨opening.pos, value.stop.stop⟩ (done.close value.tree).entries.toList, value.stop,
          value.rest⟩

end

/-! ## Runs and their readings -/

/-- Successful runs with a certain amount of fuel have readings. -/
structure HaveReadings (fuel : Nat) : Prop where
  operands : ∀ {depth chain last tokens group},
    Parser.operands fuel depth chain last tokens = .ok group → depth ≤ maxNesting →
    HasEnd tokens → ReadsGroup depth chain tokens group
  statements : ∀ {depth opening done last tokens group},
    Parser.statements fuel depth opening done last tokens = .ok group → depth ≤ maxNesting →
    HasEnd tokens → ReadsSet depth opening done tokens group

/-- What a run leaves still comes to an end of the input, unless it stopped there. -/
theorem hasEnd_of_operands {fuel depth : Nat} {chain : Expr} {last : Token} {tokens : List Token}
    {group : Group} (h : operands fuel depth chain last tokens = .ok group)
    (hdepth : depth ≤ maxNesting) (hend : HasEnd tokens)
    (hstop : group.stop.lexeme ≠ .endOfInput) : HasEnd group.rest := by
  obtain ⟨_, _, hread⟩ := (derives fuel).operands h hdepth hend
  exact hread.hasEnd hstop

theorem HaveReadings.operands_succ {fuel : Nat} (ih : HaveReadings fuel) {depth : Nat}
    {chain : Expr} {last : Token} {tokens : List Token} {group : Group}
    (h : Parser.operands (fuel + 1) depth chain last tokens = .ok group)
    (hdepth : depth ≤ maxNesting) (hend : HasEnd tokens) :
    ReadsGroup depth chain tokens group := by
  cases tokens with
  | nil =>
      obtain ⟨_, hmem, _⟩ := hend
      cases hmem
  | cons token rest =>
      rcases token.lexeme.kinds with hends | ⟨bits, hliteral⟩ | hscope | hparen | hbrace | hcolon |
        hunexpected
      · rw [operands_endsGroup hends] at h
        cases h
        exact .stop hends
      · rw [operands_literal hliteral] at h
        exact .literal hliteral (ih.operands h hdepth (hend.of_cons (by simp [hliteral])))
      · rw [operands_scope hscope] at h
        exact .scope hscope (ih.operands h hdepth (hend.of_cons (by simp [hscope])))
      · obtain ⟨hdeeper, inner, hinner, hstop, h⟩ := exists_of_operands_openParen hparen h
        have hinside := hend.of_cons (by simp [hparen])
        exact .paren hparen hdeeper (ih.operands hinner hdeeper hinside) hstop
          (ih.operands h hdepth (hasEnd_of_operands hinner hdeeper hinside (by simp [hstop])))
      · obtain ⟨hdeeper, inner, hinner, h⟩ := exists_of_operands_openBrace hbrace h
        have hinside := hend.of_cons (by simp [hbrace])
        obtain ⟨_, _, hread⟩ := (derives fuel).statements hinner hdeeper hinside
        exact .set hbrace hdeeper (ih.statements hinner hdeeper hinside)
          (ih.operands h hdepth hread.hasEnd)
      · obtain ⟨hdeeper, body, hbody, h⟩ := exists_of_operands_colon hcolon h
        have hinside := hend.of_cons (by simp [hcolon])
        obtain ⟨_, _, hread⟩ := (derives fuel).operands hbody hdeeper hinside
        -- the token that ended the body ends the group around it at once
        cases fuel with
        | zero => cases h
        | succ fuel =>
            rw [operands_endsGroup hread.endsGroup] at h
            cases h
            exact .function hcolon hdeeper (ih.operands hbody hdeeper hinside)
      · rw [operands_unexpected hunexpected] at h
        cases h

theorem HaveReadings.statements_succ {fuel : Nat} (ih : HaveReadings fuel) {depth : Nat}
    {opening : Token} {done : Statements} {last : Token} {tokens : List Token} {group : Group}
    (h : Parser.statements (fuel + 1) depth opening done last tokens = .ok group)
    (hdepth : depth ≤ maxNesting) (hend : HasEnd tokens) :
    ReadsSet depth opening done tokens group := by
  rw [Parser.statements] at h
  obtain ⟨value, hvalue, h⟩ := exists_of_bind_eq_ok h
  have hread := ih.operands hvalue hdepth hend
  have hrest := hasEnd_of_operands hvalue hdepth hend
  split at h
  · cases h
  · cases h
  · next hstop =>
      split at h
      · cases h
      · next hpresent =>
          exact .key hread hstop (by simpa using hpresent)
            (ih.statements h hdepth (hrest (by simp [hstop])))
  · next hstop => exact .next hread hstop (ih.statements h hdepth (hrest (by simp [hstop])))
  · next hstop =>
      cases h
      exact .last hread hstop
  · next hother hparen hequals hsemicolon hbrace =>
      -- a group ends with no other lexeme
      obtain ⟨_, _, hderived⟩ := (derives fuel).operands hvalue hdepth hend
      have hends := hderived.endsGroup
      cases hstop : value.stop.lexeme <;> simp_all [Lexeme.endsGroup]

theorem haveReadings (fuel : Nat) : HaveReadings fuel := by
  induction fuel with
  | zero =>
      refine ⟨fun h => ?_, fun h => ?_⟩
      · rw [Parser.operands] at h
        cases h
      · rw [Parser.statements] at h
        cases h
  | succ fuel ih => exact ⟨ih.operands_succ, ih.statements_succ⟩

end BitLang.Parser

/-! ## Whole token lists -/

namespace BitLang

/-- A token that spells nothing and stands nowhere. -/
def Token.bare (lexeme : Lexeme) : Token := ⟨lexeme, [], .none⟩

namespace Grammar

mutual

/-- The end of the input is no part of a group. -/
theorem Group.endOfInput_notMem_lexemes : (group : Group) → .endOfInput ∉ group.lexemes
  | .done => by simp [Group.lexemes]
  | .operand first rest => by
    simp [Group.lexemes, first.endOfInput_notMem_lexemes, rest.endOfInput_notMem_lexemes]
  | .function body => by simp [Group.lexemes, body.endOfInput_notMem_lexemes]

/-- The end of the input is no part of an operand. -/
theorem Operand.endOfInput_notMem_lexemes : (operand : Operand) → .endOfInput ∉ operand.lexemes
  | .literal bits => by simp [Operand.lexemes]
  | .scope => by simp [Operand.lexemes]
  | .paren group => by simp [Operand.lexemes, group.endOfInput_notMem_lexemes]
  | .set statements => by simp [Operand.lexemes, statements.endOfInput_notMem_lexemes]

/-- The end of the input is no part of a set. -/
theorem Statements.endOfInput_notMem_lexemes :
    (statements : Statements) → .endOfInput ∉ statements.lexemes
  | .last statement => by simp [Statements.lexemes, statement.endOfInput_notMem_lexemes]
  | .more statement rest => by
    simp [Statements.lexemes, statement.endOfInput_notMem_lexemes, rest.endOfInput_notMem_lexemes]

/-- The end of the input is no part of a statement. -/
theorem Statement.endOfInput_notMem_lexemes :
    (statement : Statement) → .endOfInput ∉ statement.lexemes
  | .value group => by simp [Statement.lexemes, group.endOfInput_notMem_lexemes]
  | .keyed key rest => by
    simp [Statement.lexemes, key.endOfInput_notMem_lexemes, rest.endOfInput_notMem_lexemes]

end

end Grammar

namespace Parser

/-- What is derived up to an end of the input is all that comes before the first one. -/
theorem eq_of_derived {depth : Nat} {chain : Expr} {tokens rest read : List Token} {stop : Token}
    {group : Group} {derivation : Grammar.Group}
    (htokens : ∀ token ∈ tokens, token.lexeme ≠ .endOfInput) (hstop : stop.lexeme = .endOfInput)
    (hfound : group.stop.lexeme = .endOfInput)
    (h : DerivedGroup depth chain (tokens ++ stop :: rest) group derivation read) :
    read = tokens := by
  have hread (token : Token) (hmem : token ∈ read) : token.lexeme ≠ .endOfInput := by
    intro hend
    apply derivation.endOfInput_notMem_lexemes
    rw [← h.lexemes_eq, ← hend]
    exact List.mem_map_of_mem hmem
  rcases List.append_eq_append_iff.mp h.tokens_eq with ⟨more, rfl, hmore⟩ | ⟨more, rfl, hmore⟩
  · cases more with
    | nil => exact List.append_nil tokens
    | cons token more =>
        obtain ⟨rfl, -⟩ := List.cons.inj hmore
        exact absurd hstop (hread stop (by simp))
  · cases more with
    | nil => exact (List.append_nil read).symm
    | cons token more =>
        obtain ⟨rfl, -⟩ := List.cons.inj hmore
        exact absurd hfound (htokens group.stop (by simp))

end Parser

namespace Expr

/-- A list is read as an expression by reading it as a group up to an end of the input. -/
theorem exists_operands_of_ofTokens {tokens : List Token} {e : Expr}
    (h : ofTokens tokens = .ok e) :
    ∃ first stop rest, stop.lexeme = .endOfInput ∧
      Parser.operands (2 * tokens.length + 1) 0 .absent first tokens = .ok ⟨e, stop, rest⟩ := by
  cases tokens with
  | nil => cases h
  | cons first behind =>
      rw [ofTokens] at h
      obtain ⟨group, hgroup, h⟩ := exists_of_bind_eq_ok h
      split at h
      · next hstop =>
          cases h
          exact ⟨first, group.stop, group.rest, hstop, hgroup⟩
      · cases h

/-- Only what comes before the first end of the input is read, and it can be derived. -/
theorem exists_derivation_before_end {tokens rest : List Token} {stop : Token}
    (htokens : ∀ token ∈ tokens, token.lexeme ≠ .endOfInput) (hstop : stop.lexeme = .endOfInput)
    {e : Expr} (h : ofTokens (tokens ++ stop :: rest) = .ok e) :
    ∃ derivation : Grammar.Group, tokens.map Token.lexeme = derivation.lexemes ∧
      derivation.Admissible ∧ e.eraseSpans = derivation.tree := by
  obtain ⟨first, found, behind, hfound, hread⟩ := exists_operands_of_ofTokens h
  obtain ⟨derivation, read, hderived⟩ :=
    (Parser.derives _).operands hread (Nat.zero_le _) ⟨stop, by simp, hstop⟩
  obtain rfl := Parser.eq_of_derived htokens hstop hfound hderived
  have hnesting := hderived.nesting_le
  exact ⟨derivation, hderived.lexemes_eq, ⟨hderived.keyed, by omega⟩, hderived.tree_eq⟩

/-- An expression that was read has a reading, up to an end of the input. -/
theorem exists_readsGroup_of_ofTokens {tokens : List Token} (hend : Parser.HasEnd tokens)
    {e : Expr} (h : ofTokens tokens = .ok e) :
    ∃ stop rest, stop.lexeme = .endOfInput ∧
      Parser.ReadsGroup 0 .absent tokens ⟨e, stop, rest⟩ := by
  obtain ⟨first, stop, rest, hstop, hread⟩ := exists_operands_of_ofTokens h
  exact ⟨stop, rest, hstop, (Parser.haveReadings _).operands hread (Nat.zero_le _) hend⟩

end Expr

end BitLang
