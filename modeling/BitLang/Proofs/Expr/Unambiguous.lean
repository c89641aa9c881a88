/-
# Derivations are unique

A list of lexemes has at most one derivation.  The first lexeme of what is left to derive tells
how to go on: a group ends at a lexeme that ends groups, a colon begins the body of a function and
all else begins an operand.  So two derivations that agree on their lexemes, each with a mark that
ends it behind, agree on where they end and on all their parts.
-/

import BitLang.Proofs.Expr.Grammar

namespace BitLang

namespace Grammar

/-- An operand begins with a lexeme that neither ends a group nor begins a function. -/
theorem Operand.exists_lexemes_eq_cons (operand : Operand) :
    ∃ first behind, operand.lexemes = first :: behind ∧ first.endsGroup = false ∧
      first ≠ .colon := by
  cases operand <;> exact ⟨_, _, rfl, rfl, by simp⟩

/-- An operand begins neither like what comes behind a group nor like a function. -/
theorem Operand.lexemes_append_ne (operand : Operand) {last : Lexeme} (behind rest : List Lexeme)
    (h : last.endsGroup = true ∨ last = .colon) : last :: behind ≠ operand.lexemes ++ rest := by
  obtain ⟨first, inside, hlexemes, hends, hcolon⟩ := operand.exists_lexemes_eq_cons
  rw [hlexemes, List.cons_append]
  intro heq
  obtain ⟨rfl, -⟩ := List.cons.inj heq
  rcases h with h | h
  · rw [hends] at h
    cases h
  · exact hcolon h

mutual

/-- Groups are told by their lexemes, with a lexeme behind that ends them. -/
theorem Group.eq_of_lexemes_append : (group other : Group) → {last last' : Lexeme} →
    {behind behind' : List Lexeme} → last.endsGroup = true → last'.endsGroup = true →
    group.lexemes ++ last :: behind = other.lexemes ++ last' :: behind' →
    group = other ∧ last = last' ∧ behind = behind'
  | .done, .done, _, _, _, _, _, _, h => ⟨rfl, List.cons.inj h⟩
  | .done, .operand first rest, _, _, _, _, hlast, _, h => by
    rw [Group.lexemes, Group.lexemes, List.append_assoc, List.nil_append] at h
    exact absurd h (first.lexemes_append_ne _ _ (.inl hlast))
  | .done, .function body, _, _, _, _, hlast, _, h => by
    obtain ⟨rfl, -⟩ := List.cons.inj h
    cases hlast
  | .operand first rest, .done, _, _, _, _, _, hlast', h => by
    rw [Group.lexemes, Group.lexemes, List.append_assoc, List.nil_append] at h
    exact absurd h.symm (first.lexemes_append_ne _ _ (.inl hlast'))
  | .operand first rest, .operand first' rest', _, _, _, _, hlast, hlast', h => by
    rw [Group.lexemes, Group.lexemes, List.append_assoc, List.append_assoc] at h
    obtain ⟨rfl, hrest⟩ := first.eq_of_lexemes_append first' h
    obtain ⟨rfl, hbehind⟩ := rest.eq_of_lexemes_append rest' hlast hlast' hrest
    exact ⟨rfl, hbehind⟩
  | .operand first rest, .function body, _, _, _, _, _, _, h => by
    rw [Group.lexemes, Group.lexemes, List.append_assoc, List.cons_append] at h
    exact absurd h.symm (first.lexemes_append_ne _ _ (.inr rfl))
  | .function body, .done, _, _, _, _, _, hlast', h => by
    obtain ⟨rfl, -⟩ := List.cons.inj h
    cases hlast'
  | .function body, .operand first rest, _, _, _, _, _, _, h => by
    rw [Group.lexemes, Group.lexemes, List.append_assoc, List.cons_append] at h
    exact absurd h (first.lexemes_append_ne _ _ (.inr rfl))
  | .function body, .function body', _, _, _, _, hlast, hlast', h => by
    obtain ⟨rfl, hbehind⟩ := body.eq_of_lexemes_append body' hlast hlast' (List.cons.inj h).2
    exact ⟨rfl, hbehind⟩

/-- Operands are told by their lexemes, whatever comes behind. -/
theorem Operand.eq_of_lexemes_append : (operand other : Operand) → {rest rest' : List Lexeme} →
    operand.lexemes ++ rest = other.lexemes ++ rest' → operand = other ∧ rest = rest'
  | .literal bits, .literal bits', _, _, h => by
    simpa [Operand.lexemes] using h
  | .scope, .scope, _, _, h => ⟨rfl, (List.cons.inj h).2⟩
  | .paren group, .paren group', _, _, h => by
    simp only [Operand.lexemes, List.cons_append, List.append_assoc, List.nil_append,
      List.cons.injEq, true_and] at h
    obtain ⟨rfl, -, hrest⟩ := group.eq_of_lexemes_append group' rfl rfl h
    exact ⟨rfl, hrest⟩
  | .set statements, .set statements', _, _, h => by
    simp only [Operand.lexemes, List.cons_append, List.append_assoc, List.nil_append,
      List.cons.injEq, true_and] at h
    obtain ⟨rfl, hrest⟩ := statements.eq_of_lexemes_append statements' h
    exact ⟨rfl, hrest⟩
  | .literal _, .scope, _, _, h | .literal _, .paren _, _, _, h | .literal _, .set _, _, _, h
  | .scope, .literal _, _, _, h | .scope, .paren _, _, _, h | .scope, .set _, _, _, h
  | .paren _, .literal _, _, _, h | .paren _, .scope, _, _, h | .paren _, .set _, _, _, h
  | .set _, .literal _, _, _, h | .set _, .scope, _, _, h | .set _, .paren _, _, _, h => by
    cases (List.cons.inj h).1

/-- The statements of a set are told by their lexemes up to its closing brace. -/
theorem Statements.eq_of_lexemes_append : (statements other : Statements) →
    {rest rest' : List Lexeme} →
    statements.lexemes ++ .closeBrace :: rest = other.lexemes ++ .closeBrace :: rest' →
    statements = other ∧ rest = rest'
  | .last statement, .last statement', _, _, h => by
    obtain ⟨rfl, -, hrest⟩ :=
      statement.eq_of_lexemes_append statement' (.inr rfl) (.inr rfl) h
    exact ⟨rfl, hrest⟩
  | .last statement, .more statement' others', _, _, h => by
    rw [Statements.lexemes, Statements.lexemes, List.append_assoc, List.cons_append] at h
    obtain ⟨-, hlast, -⟩ := statement.eq_of_lexemes_append statement' (.inr rfl) (.inl rfl) h
    cases hlast
  | .more statement others, .last statement', _, _, h => by
    rw [Statements.lexemes, Statements.lexemes, List.append_assoc, List.cons_append] at h
    obtain ⟨-, hlast, -⟩ := statement.eq_of_lexemes_append statement' (.inl rfl) (.inr rfl) h
    cases hlast
  | .more statement others, .more statement' others', _, _, h => by
    rw [Statements.lexemes, Statements.lexemes, List.append_assoc, List.append_assoc,
      List.cons_append, List.cons_append] at h
    obtain ⟨rfl, -, hothers⟩ :=
      statement.eq_of_lexemes_append statement' (.inl rfl) (.inl rfl) h
    obtain ⟨rfl, hrest⟩ := others.eq_of_lexemes_append others' hothers
    exact ⟨rfl, hrest⟩

/-- A statement is told by its lexemes up to the mark behind it. -/
theorem Statement.eq_of_lexemes_append : (statement other : Statement) → {last last' : Lexeme} →
    {behind behind' : List Lexeme} → last = .semicolon ∨ last = .closeBrace →
    last' = .semicolon ∨ last' = .closeBrace →
    statement.lexemes ++ last :: behind = other.lexemes ++ last' :: behind' →
    statement = other ∧ last = last' ∧ behind = behind'
  | .value group, .value group', _, _, _, _, hlast, hlast', h => by
    obtain ⟨rfl, hbehind⟩ := group.eq_of_lexemes_append group'
      (by rcases hlast with rfl | rfl <;> rfl) (by rcases hlast' with rfl | rfl <;> rfl) h
    exact ⟨rfl, hbehind⟩
  | .value group, .keyed key rest, _, _, _, _, hlast, _, h => by
    rw [Statement.lexemes, Statement.lexemes, List.append_assoc, List.cons_append] at h
    obtain ⟨-, rfl, -⟩ := group.eq_of_lexemes_append key
      (by rcases hlast with rfl | rfl <;> rfl) rfl h
    rcases hlast with hlast | hlast <;> cases hlast
  | .keyed key rest, .value group, _, _, _, _, _, hlast', h => by
    rw [Statement.lexemes, Statement.lexemes, List.append_assoc, List.cons_append] at h
    obtain ⟨-, rfl, -⟩ := key.eq_of_lexemes_append group rfl
      (by rcases hlast' with rfl | rfl <;> rfl) h
    rcases hlast' with hlast' | hlast' <;> cases hlast'
  | .keyed key rest, .keyed key' rest', _, _, _, _, hlast, hlast', h => by
    rw [Statement.lexemes, Statement.lexemes, List.append_assoc, List.append_assoc,
      List.cons_append, List.cons_append] at h
    obtain ⟨rfl, -, hrest⟩ := key.eq_of_lexemes_append key' rfl rfl h
    obtain ⟨rfl, hbehind⟩ := rest.eq_of_lexemes_append rest' hlast hlast' hrest
    exact ⟨rfl, hbehind⟩

end

/-- The grammar is unambiguous. -/
theorem Group.lexemes_inj {group other : Group} :
    group.lexemes = other.lexemes ↔ group = other := by
  constructor
  · intro h
    have hends : Lexeme.endOfInput.endsGroup = true := rfl
    exact (group.eq_of_lexemes_append other hends hends
      (congrArg (· ++ [Lexeme.endOfInput]) h)).1
  · exact congrArg Group.lexemes

end Grammar

end BitLang
