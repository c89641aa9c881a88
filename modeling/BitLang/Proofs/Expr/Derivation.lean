/-
# Reading is deriving

The reader finds a derivation of what it accepts, and it accepts whatever has an
admissible derivation.  Both directions keep account of the tree: what the reader puts on
its chain is, up to spans, what the derivation says.

Soundness is an induction on the fuel of the reader.  Completeness is an induction on the
derivation; it also shows that twice the number of tokens is enough fuel.
-/

import BitLang.Proofs.Expr.Grammar

namespace BitLang

open Grammar (Operand Statement)

namespace Parser

/-- The tokens come to the end of the input. -/
def HasEnd (tokens : List Token) : Prop := ∃ token ∈ tokens, token.lexeme = .endOfInput

theorem HasEnd.of_cons {token : Token} {rest : List Token} (h : HasEnd (token :: rest))
    (htoken : token.lexeme ≠ .endOfInput) : HasEnd rest := by
  rcases h with ⟨last, hmem, hlast⟩
  rcases List.mem_cons.mp hmem with rfl | hrest
  · exact absurd hlast htoken
  · exact ⟨last, hrest, hlast⟩

/-! ## What is read can be derived -/

/-- The group was read off the front of the tokens, up to the lexeme that ends it, and the
derivation tells its tree. -/
structure DerivedGroup (depth : Nat) (chain : Expr) (tokens : List Token) (group : Group)
    (derivation : Grammar.Group) (read : List Token) : Prop where
  tokens_eq : tokens = read ++ group.stop :: group.rest
  endsGroup : group.stop.lexeme.endsGroup = true
  lexemes_eq : read.map Token.lexeme = derivation.lexemes
  keyed : derivation.Keyed
  nesting_le : depth + derivation.nesting ≤ maxNesting
  tree_eq : group.tree.eraseSpans = derivation.treeOnto chain.eraseSpans
  hasEnd : group.stop.lexeme ≠ .endOfInput → HasEnd group.rest

/-- The set was read off the front of the tokens, up to its closing brace, and the
derivation tells which entries come after those that were there before. -/
structure DerivedSet (depth : Nat) (done : Statements) (tokens : List Token) (group : Group)
    (derivation : Grammar.Statements) (read : List Token) : Prop where
  tokens_eq : tokens = read ++ group.stop :: group.rest
  stop_eq : group.stop.lexeme = .closeBrace
  lexemes_eq : read.map Token.lexeme = derivation.lexemes
  keyed : derivation.Keyed
  nesting_le : depth + derivation.nesting ≤ maxNesting
  tree_eq : group.tree.eraseSpans = .set .none
    (Expr.eraseEntries done.entries.toList ++ derivation.entries done.pending done.keyless)
  hasEnd : HasEnd group.rest

section Derived

variable {depth : Nat} {chain : Expr} {done : Statements} {token : Token}
  {tokens read rest : List Token} {group value : Group} {derivation : Grammar.Group}
  {statements : Grammar.Statements}

theorem derivedGroup_done (hdepth : depth ≤ maxNesting) (h : token.lexeme.endsGroup = true)
    (hend : HasEnd (token :: rest)) :
    DerivedGroup depth chain (token :: rest) ⟨chain, token, rest⟩ .done [] :=
  ⟨rfl, h, rfl, trivial, hdepth, rfl, hend.of_cons⟩

/-- An operand comes before a group that goes onto the chain with the operand. -/
theorem DerivedGroup.operand {next : Expr} {pos : Position}
    (h : DerivedGroup depth (chain.follow next pos) tokens group derivation read)
    (operand : Operand) (front : List Token) (hfront : front.map Token.lexeme = operand.lexemes)
    (hkeyed : operand.Keyed) (hnesting : depth + operand.nesting ≤ maxNesting)
    (hnext : next.eraseSpans = operand.tree) :
    DerivedGroup depth chain (front ++ tokens) group (.operand operand derivation)
      (front ++ read) where
  tokens_eq := by rw [h.tokens_eq, List.append_assoc]
  endsGroup := h.endsGroup
  lexemes_eq := by rw [List.map_append, hfront, h.lexemes_eq, Grammar.Group.lexemes]
  keyed := ⟨hkeyed, h.keyed⟩
  nesting_le := by
    have := h.nesting_le
    rw [Grammar.Group.nesting]
    omega
  tree_eq := by rw [h.tree_eq, Expr.eraseSpans_follow, hnext, Grammar.Group.treeOnto]
  hasEnd := h.hasEnd

/-- A group after a colon is the body of a function. -/
theorem DerivedGroup.function (h : DerivedGroup (depth + 1) .absent rest group derivation read)
    (htoken : token.lexeme = .colon) :
    DerivedGroup depth chain (token :: rest) ⟨functionOf chain token group, group.stop, group.rest⟩
      (.function derivation) (token :: read) where
  tokens_eq := by rw [h.tokens_eq, List.cons_append]
  endsGroup := h.endsGroup
  lexemes_eq := by rw [List.map_cons, htoken, h.lexemes_eq, Grammar.Group.lexemes]
  keyed := h.keyed
  nesting_le := by
    have := h.nesting_le
    rw [Grammar.Group.nesting]
    omega
  tree_eq := by
    rw [eraseSpans_functionOf, h.tree_eq, Grammar.Group.treeOnto]
    rfl
  hasEnd := h.hasEnd

/-- A group up to its closing parenthesis is an operand of the group around it. -/
theorem DerivedGroup.paren {inner : Group} {derivation' : Grammar.Group} {read' : List Token}
    {pos : Position} (hinner : DerivedGroup (depth + 1) .absent rest inner derivation read)
    (htoken : token.lexeme = .openParen) (hstop : inner.stop.lexeme = .closeParen)
    (h : DerivedGroup depth (chain.follow inner.tree pos) inner.rest group derivation' read') :
    DerivedGroup depth chain (token :: rest) group (.operand (.paren derivation) derivation')
      (token :: (read ++ [inner.stop]) ++ read') := by
  have hfront : (token :: (read ++ [inner.stop])).map Token.lexeme =
      (Operand.paren derivation).lexemes := by
    simp only [List.map_cons, List.map_append, htoken, hstop, hinner.lexemes_eq, Operand.lexemes,
      List.map_nil]
  have hnesting : depth + (Operand.paren derivation).nesting ≤ maxNesting := by
    have := hinner.nesting_le
    rw [Operand.nesting]
    omega
  have hoperand := h.operand (.paren derivation) _ hfront hinner.keyed hnesting hinner.tree_eq
  rw [hinner.tokens_eq]
  simpa only [List.cons_append, List.append_assoc, List.nil_append] using hoperand

/-- A set up to its closing brace is an operand of the group around it. -/
theorem DerivedSet.operand {inner : Group} {read' : List Token} {pos : Position}
    (hinner : DerivedSet (depth + 1) ⟨.absent, 0, #[]⟩ rest inner statements read)
    (htoken : token.lexeme = .openBrace)
    (h : DerivedGroup depth (chain.follow inner.tree pos) inner.rest group derivation read') :
    DerivedGroup depth chain (token :: rest) group (.operand (.set statements) derivation)
      (token :: (read ++ [inner.stop]) ++ read') := by
  have hfront : (token :: (read ++ [inner.stop])).map Token.lexeme =
      (Operand.set statements).lexemes := by
    simp only [List.map_cons, List.map_append, htoken, hinner.stop_eq, hinner.lexemes_eq,
      Operand.lexemes, List.map_nil]
  have hnesting : depth + (Operand.set statements).nesting ≤ maxNesting := by
    have := hinner.nesting_le
    rw [Operand.nesting]
    omega
  have hoperand := h.operand (.set statements) _ hfront hinner.keyed hnesting hinner.tree_eq
  rw [hinner.tokens_eq]
  simpa only [List.cons_append, List.append_assoc, List.nil_append] using hoperand

/-- A group before a closing brace is the value of the last statement. -/
theorem DerivedGroup.lastValue (h : DerivedGroup depth .absent tokens value derivation read)
    (hstop : value.stop.lexeme = .closeBrace) (span : Span) :
    DerivedSet depth done tokens
      ⟨.set span (done.close value.tree).entries.toList, value.stop, value.rest⟩
      (.last (.value derivation)) read where
  tokens_eq := h.tokens_eq
  stop_eq := hstop
  lexemes_eq := h.lexemes_eq
  keyed := h.keyed
  nesting_le := h.nesting_le
  tree_eq := by
    rw [Expr.eraseSpans, Statements.entries_close, h.tree_eq]
    rfl
  hasEnd := h.hasEnd (by simp [hstop])

/-- A group before a semicolon is the value of a statement that others follow. -/
theorem DerivedGroup.nextValue (h : DerivedGroup depth .absent tokens value derivation read)
    (hstop : value.stop.lexeme = .semicolon) {more : List Token}
    (hmore : DerivedSet depth (done.close value.tree) value.rest group statements more) :
    DerivedSet depth done tokens group (.more (.value derivation) statements)
      (read ++ value.stop :: more) where
  tokens_eq := by
    rw [h.tokens_eq, hmore.tokens_eq]
    simp only [List.append_assoc, List.cons_append]
  stop_eq := hmore.stop_eq
  lexemes_eq := by
    simp only [List.map_append, List.map_cons, hstop, Grammar.Statements.lexemes,
      Statement.lexemes, ← h.lexemes_eq, ← hmore.lexemes_eq]
  keyed := ⟨h.keyed, hmore.keyed⟩
  nesting_le := by
    have := h.nesting_le
    have := hmore.nesting_le
    simp only [Grammar.Statements.nesting, Statement.nesting]
    omega
  tree_eq := by
    rw [hmore.tree_eq, Statements.entries_close, Statements.pending_close,
      Statements.keyless_close, h.tree_eq, List.append_assoc]
    rfl
  hasEnd := hmore.hasEnd

/-- A group before an equals sign is a key of the statement behind it. -/
theorem DerivedGroup.key (h : DerivedGroup depth .absent tokens value derivation read)
    (hstop : value.stop.lexeme = .equals) (hvalue : value.tree.isAbsent = false)
    {more : List Token}
    (hmore : DerivedSet depth { done with key := value.tree } value.rest group statements more) :
    DerivedSet depth done tokens group (statements.withKey derivation)
      (read ++ value.stop :: more) where
  tokens_eq := by
    rw [h.tokens_eq, hmore.tokens_eq]
    simp only [List.append_assoc, List.cons_append]
  stop_eq := hmore.stop_eq
  lexemes_eq := by
    simp only [List.map_append, List.map_cons, hstop,
      Grammar.Statements.lexemes_withKey, ← h.lexemes_eq, ← hmore.lexemes_eq]
  keyed := by
    refine Grammar.Statements.keyed_withKey ?_ h.keyed hmore.keyed
    intro habsent
    rw [← Expr.isAbsent_eraseSpans, h.tree_eq, Expr.eraseSpans, habsent] at hvalue
    cases hvalue
  nesting_le := by
    have := h.nesting_le
    have := hmore.nesting_le
    rw [Grammar.Statements.nesting_withKey]
    omega
  tree_eq := by
    rw [hmore.tree_eq, Statements.pending_of_present hvalue, h.tree_eq,
      Grammar.Statements.entries_withKey]
    rfl
  hasEnd := hmore.hasEnd

end Derived

/-- What is read with a certain amount of fuel can be derived. -/
structure Derives (fuel : Nat) : Prop where
  operands : ∀ {depth chain last tokens group},
    Parser.operands fuel depth chain last tokens = .ok group → depth ≤ maxNesting →
    HasEnd tokens → ∃ derivation read, DerivedGroup depth chain tokens group derivation read
  statements : ∀ {depth opening done last tokens group},
    Parser.statements fuel depth opening done last tokens = .ok group → depth ≤ maxNesting →
    HasEnd tokens → ∃ derivation read, DerivedSet depth done tokens group derivation read

theorem Derives.operands_succ {fuel : Nat} (ih : Derives fuel) {depth : Nat} {chain : Expr}
    {last : Token} {tokens : List Token} {group : Group}
    (h : Parser.operands (fuel + 1) depth chain last tokens = .ok group)
    (hdepth : depth ≤ maxNesting) (hend : HasEnd tokens) :
    ∃ derivation read, DerivedGroup depth chain tokens group derivation read := by
  cases tokens with
  | nil =>
      obtain ⟨_, hmem, _⟩ := hend
      cases hmem
  | cons token rest =>
      rcases token.lexeme.kinds with hends | ⟨bits, hliteral⟩ | hscope | hparen | hbrace | hcolon |
        hunexpected
      · rw [operands_endsGroup hends] at h
        cases h
        exact ⟨_, _, derivedGroup_done hdepth hends hend⟩
      · rw [operands_literal hliteral] at h
        obtain ⟨derivation, read, hgroup⟩ :=
          ih.operands h hdepth (hend.of_cons (by simp [hliteral]))
        exact ⟨_, _, hgroup.operand (.literal bits) [token] (by simp [hliteral, Operand.lexemes])
          trivial hdepth rfl⟩
      · rw [operands_scope hscope] at h
        obtain ⟨derivation, read, hgroup⟩ :=
          ih.operands h hdepth (hend.of_cons (by simp [hscope]))
        exact ⟨_, _, hgroup.operand .scope [token] (by simp [hscope, Operand.lexemes])
          trivial hdepth rfl⟩
      · obtain ⟨hdeeper, inner, hinner, hstop, h⟩ := exists_of_operands_openParen hparen h
        obtain ⟨derivation, read, hread⟩ :=
          ih.operands hinner hdeeper (hend.of_cons (by simp [hparen]))
        obtain ⟨derivation', read', hgroup⟩ :=
          ih.operands h hdepth (hread.hasEnd (by simp [hstop]))
        exact ⟨_, _, hread.paren hparen hstop hgroup⟩
      · obtain ⟨hdeeper, inner, hinner, h⟩ := exists_of_operands_openBrace hbrace h
        obtain ⟨derivation, read, hread⟩ :=
          ih.statements hinner hdeeper (hend.of_cons (by simp [hbrace]))
        obtain ⟨derivation', read', hgroup⟩ := ih.operands h hdepth hread.hasEnd
        exact ⟨_, _, hread.operand hbrace hgroup⟩
      · obtain ⟨hdeeper, body, hbody, h⟩ := exists_of_operands_colon hcolon h
        obtain ⟨derivation, read, hread⟩ :=
          ih.operands hbody hdeeper (hend.of_cons (by simp [hcolon]))
        -- the token that ended the body ends the group around it at once
        cases fuel with
        | zero => cases h
        | succ fuel =>
            rw [operands_endsGroup hread.endsGroup] at h
            cases h
            exact ⟨_, _, hread.function hcolon⟩
      · rw [operands_unexpected hunexpected] at h
        cases h

theorem Derives.statements_succ {fuel : Nat} (ih : Derives fuel) {depth : Nat} {opening : Token}
    {done : Statements} {last : Token} {tokens : List Token} {group : Group}
    (h : Parser.statements (fuel + 1) depth opening done last tokens = .ok group)
    (hdepth : depth ≤ maxNesting) (hend : HasEnd tokens) :
    ∃ derivation read, DerivedSet depth done tokens group derivation read := by
  rw [Parser.statements] at h
  obtain ⟨value, hvalue, h⟩ := exists_of_bind_eq_ok h
  obtain ⟨derivation, read, hread⟩ := ih.operands hvalue hdepth hend
  split at h
  · cases h
  · cases h
  · next hstop =>
      split at h
      · cases h
      · next hpresent =>
          obtain ⟨derivation', more, hmore⟩ :=
            ih.statements h hdepth (hread.hasEnd (by simp [hstop]))
          exact ⟨_, _, hread.key hstop (by simpa using hpresent) hmore⟩
  · next hstop =>
      obtain ⟨derivation', more, hmore⟩ :=
        ih.statements h hdepth (hread.hasEnd (by simp [hstop]))
      exact ⟨_, _, hread.nextValue hstop hmore⟩
  · next hstop =>
      cases h
      exact ⟨_, _, hread.lastValue hstop _⟩
  · next hend hparen hequals hsemicolon hbrace =>
      -- a group ends with no other lexeme
      have hends := hread.endsGroup
      cases hstop : value.stop.lexeme <;> simp_all [Lexeme.endsGroup]

theorem derives (fuel : Nat) : Derives fuel := by
  induction fuel with
  | zero =>
      refine ⟨fun h => ?_, fun h => ?_⟩
      · rw [Parser.operands] at h
        cases h
      · rw [Parser.statements] at h
        cases h
  | succ fuel ih => exact ⟨ih.operands_succ, ih.statements_succ⟩

end Parser

/-! ## What can be derived is read -/

namespace Grammar

theorem Operand.length_lexemes_pos (operand : Operand) : 0 < operand.lexemes.length := by
  cases operand <;> simp [lexemes]

/-- Tokens between brackets. -/
theorem exists_of_bracketed {read : List Token} {left right : Lexeme} {inside : List Lexeme}
    (h : read.map Token.lexeme = left :: (inside ++ [right])) :
    ∃ opening inner close, read = opening :: (inner ++ [close]) ∧ opening.lexeme = left ∧
      inner.map Token.lexeme = inside ∧ close.lexeme = right := by
  obtain ⟨opening, behind, rfl, hopening, hbehind⟩ := List.map_eq_cons_iff.mp h
  obtain ⟨inner, closing, rfl, hinner, hclosing⟩ := List.map_eq_append_iff.mp hbehind
  obtain ⟨close, rfl, hclose⟩ := List.map_eq_singleton_iff.mp hclosing
  exact ⟨opening, inner, close, rfl, hopening, hinner, hclose⟩

-- Each of these gets by with fuel for the tokens it takes; how many come after them makes no
-- difference.
mutual

/-- The reader takes a group to its end, whatever comes after that. -/
theorem Group.accepts (derivation : Group) (hkeyed : derivation.Keyed) {read : List Token}
    (hread : read.map Token.lexeme = derivation.lexemes) {stop : Token}
    (hstop : stop.lexeme.endsGroup = true) {fuel depth : Nat}
    (hnesting : depth + derivation.nesting ≤ maxNesting) (hfuel : 2 * (read.length + 1) ≤ fuel)
    (chain : Expr) (last : Token) (rest : List Token) :
    ∃ tree, Parser.operands fuel depth chain last (read ++ stop :: rest) =
        .ok ⟨tree, stop, rest⟩ ∧
      tree.eraseSpans = derivation.treeOnto chain.eraseSpans := by
  obtain ⟨fuel, rfl⟩ := Nat.exists_eq_add_of_le' (show 1 ≤ fuel by omega)
  cases derivation with
  | done =>
      rw [Group.lexemes, List.map_eq_nil_iff] at hread
      subst hread
      exact ⟨chain, Parser.operands_endsGroup hstop, rfl⟩
  | operand first more =>
      obtain ⟨front, back, rfl, hfront, hback⟩ := List.map_eq_append_iff.mp hread
      have hpos := first.length_lexemes_pos
      rw [← hfront, List.length_map] at hpos
      rw [List.length_append] at hfuel
      rw [Group.nesting] at hnesting
      obtain ⟨next, pos, before, hnext, hstep⟩ := first.accepts hkeyed.1 hfront
        (show depth + first.nesting ≤ maxNesting by omega)
        (show 2 * front.length ≤ fuel + 1 by omega) chain last (back ++ stop :: rest)
      obtain ⟨tree, hgroup, htree⟩ := more.accepts hkeyed.2 hback hstop
        (show depth + more.nesting ≤ maxNesting by omega)
        (show 2 * (back.length + 1) ≤ fuel by omega) (chain.follow next pos) before rest
      refine ⟨tree, ?_, ?_⟩
      · rw [List.append_assoc, hstep, hgroup]
      · rw [htree, Expr.eraseSpans_follow, hnext, Group.treeOnto]
  | function body =>
      obtain ⟨colon, inner, rfl, hcolon, hinner⟩ := List.map_eq_cons_iff.mp hread
      rw [List.length_cons] at hfuel
      rw [Group.nesting] at hnesting
      obtain ⟨tree, hbody, htree⟩ := body.accepts hkeyed hinner hstop
        (show depth + 1 + body.nesting ≤ maxNesting by omega)
        (show 2 * (inner.length + 1) ≤ fuel by omega) .absent colon rest
      obtain ⟨fuel, rfl⟩ := Nat.exists_eq_add_of_le' (show 1 ≤ fuel by omega)
      refine ⟨Parser.functionOf chain colon ⟨tree, stop, rest⟩, ?_, ?_⟩
      · rw [List.cons_append, Parser.operands_colon hcolon (by omega), hbody, ok_bind,
          Parser.operands_endsGroup hstop]
      · rw [Parser.eraseSpans_functionOf, htree, Group.treeOnto]
        rfl

/-- The reader takes an operand onto its chain and goes on. -/
theorem Operand.accepts (derivation : Operand) (hkeyed : derivation.Keyed) {read : List Token}
    (hread : read.map Token.lexeme = derivation.lexemes) {fuel depth : Nat}
    (hnesting : depth + derivation.nesting ≤ maxNesting) (hfuel : 2 * read.length ≤ fuel + 1)
    (chain : Expr) (last : Token) (more : List Token) :
    ∃ next pos before, next.eraseSpans = derivation.tree ∧
      Parser.operands (fuel + 1) depth chain last (read ++ more) =
        Parser.operands fuel depth (chain.follow next pos) before more := by
  cases derivation with
  | literal bits =>
      obtain ⟨token, rfl, htoken⟩ := List.map_eq_singleton_iff.mp hread
      exact ⟨_, _, _, rfl, Parser.operands_literal htoken⟩
  | scope =>
      obtain ⟨token, rfl, htoken⟩ := List.map_eq_singleton_iff.mp hread
      exact ⟨_, _, _, rfl, Parser.operands_scope htoken⟩
  | paren group =>
      obtain ⟨opening, inner, close, rfl, hopening, hinner, hclose⟩ := exists_of_bracketed hread
      simp only [List.length_cons, List.length_append, List.length_nil] at hfuel
      rw [Operand.nesting] at hnesting
      obtain ⟨tree, hgroup, htree⟩ := group.accepts hkeyed hinner
        (show close.lexeme.endsGroup = true by rw [hclose]; rfl)
        (show depth + 1 + group.nesting ≤ maxNesting by omega)
        (show 2 * (inner.length + 1) ≤ fuel by omega) .absent opening more
      refine ⟨tree, opening.pos, close, htree, ?_⟩
      rw [List.cons_append, List.append_assoc, Parser.operands_openParen hopening (by omega),
        List.singleton_append, hgroup, ok_bind]
      simp only [hclose]
  | set statements =>
      obtain ⟨opening, inner, close, rfl, hopening, hinner, hclose⟩ := exists_of_bracketed hread
      simp only [List.length_cons, List.length_append, List.length_nil] at hfuel
      rw [Operand.nesting] at hnesting
      obtain ⟨tree, hset, htree⟩ := statements.accepts hkeyed hinner hclose
        (show depth + 1 + statements.nesting ≤ maxNesting by omega)
        (show 2 * (inner.length + 1) + 1 ≤ fuel by omega) opening ⟨.absent, 0, #[]⟩ opening more
      refine ⟨tree, opening.pos, close, htree, ?_⟩
      rw [List.cons_append, List.append_assoc, Parser.operands_openBrace hopening (by omega),
        List.singleton_append, hset, ok_bind]

/-- The reader takes the statements of a set to its closing brace. -/
theorem Statements.accepts (derivation : Statements) (hkeyed : derivation.Keyed)
    {read : List Token} (hread : read.map Token.lexeme = derivation.lexemes) {stop : Token}
    (hstop : stop.lexeme = .closeBrace) {fuel depth : Nat}
    (hnesting : depth + derivation.nesting ≤ maxNesting)
    (hfuel : 2 * (read.length + 1) + 1 ≤ fuel) (opening : Token) (done : Parser.Statements)
    (last : Token) (rest : List Token) :
    ∃ tree, Parser.statements fuel depth opening done last (read ++ stop :: rest) =
        .ok ⟨tree, stop, rest⟩ ∧
      tree.eraseSpans = .set .none (Expr.eraseEntries done.entries.toList ++
        derivation.entries done.pending done.keyless) := by
  cases derivation with
  | last statement =>
      obtain ⟨fuel', closed, -, hstep, -, -, hentries⟩ := statement.accepts hkeyed hread
        (.inr hstop) hnesting hfuel opening done last rest
      rw [hstep, Parser.afterStatement]
      simp only [hstop]
      exact ⟨_, rfl, by rw [Expr.eraseSpans, hentries, Statements.entries]⟩
  | more statement others =>
      obtain ⟨front, back, rfl, hfront, hback⟩ := List.map_eq_append_iff.mp hread
      obtain ⟨semicolon, back, rfl, hsemicolon, hback⟩ := List.map_eq_cons_iff.mp hback
      simp only [List.length_append, List.length_cons] at hfuel
      rw [Statements.nesting] at hnesting
      obtain ⟨fuel', closed, hfuel', hstep, hpending, hkeyless, hentries⟩ :=
        statement.accepts hkeyed.1 hfront (.inl hsemicolon)
          (show depth + statement.nesting ≤ maxNesting by omega)
          (show 2 * (front.length + 1) + 1 ≤ fuel by omega) opening done last
          (back ++ stop :: rest)
      obtain ⟨tree, hset, htree⟩ := others.accepts hkeyed.2 hback hstop
        (show depth + others.nesting ≤ maxNesting by omega)
        (show 2 * (back.length + 1) + 1 ≤ fuel' by omega) opening closed semicolon rest
      refine ⟨tree, ?_, ?_⟩
      · rw [List.append_assoc, List.cons_append, hstep, Parser.afterStatement]
        simp only [hsemicolon, hset]
      · rw [htree, hpending, hkeyless, hentries, Statements.entries, List.append_assoc]

/-- The reader takes a statement to the mark behind it and closes it.  Each key costs it
one unit of fuel. -/
theorem Statement.accepts (derivation : Statement) (hkeyed : derivation.Keyed)
    {read : List Token} (hread : read.map Token.lexeme = derivation.lexemes) {stop : Token}
    (hstop : stop.lexeme = .semicolon ∨ stop.lexeme = .closeBrace) {fuel depth : Nat}
    (hnesting : depth + derivation.nesting ≤ maxNesting)
    (hfuel : 2 * (read.length + 1) + 1 ≤ fuel) (opening : Token) (done : Parser.Statements)
    (last : Token) (rest : List Token) :
    ∃ fuel' closed, fuel ≤ fuel' + read.length + 1 ∧
      Parser.statements fuel depth opening done last (read ++ stop :: rest) =
        Parser.afterStatement fuel' depth opening closed stop rest ∧
      closed.pending = none ∧
      closed.keyless = countKeyless done.keyless (derivation.parts done.pending) ∧
      Expr.eraseEntries closed.entries.toList = Expr.eraseEntries done.entries.toList ++
        entriesOf done.keyless (derivation.parts done.pending) := by
  obtain ⟨fuel, rfl⟩ := Nat.exists_eq_add_of_le' (show 1 ≤ fuel by omega)
  cases derivation with
  | value group =>
      have hends : stop.lexeme.endsGroup = true := by
        rcases hstop with hstop | hstop <;> rw [hstop] <;> rfl
      obtain ⟨tree, hgroup, htree⟩ := group.accepts hkeyed hread hends hnesting
        (show 2 * (read.length + 1) ≤ fuel by omega) .absent last rest
      refine ⟨fuel, done.close tree, by omega, Parser.statements_value hgroup hstop,
        done.pending_close tree, ?_, ?_⟩
      · rw [done.keyless_close tree, htree]
        rfl
      · rw [done.entries_close tree, htree]
        rfl
  | keyed key behind =>
      obtain ⟨front, back, rfl, hfront, hback⟩ := List.map_eq_append_iff.mp hread
      obtain ⟨equals, back, rfl, hequals, hback⟩ := List.map_eq_cons_iff.mp hback
      simp only [List.length_append, List.length_cons] at hfuel ⊢
      rw [Statement.nesting] at hnesting
      obtain ⟨tree, hgroup, htree⟩ := key.accepts hkeyed.2.1 hfront
        (show equals.lexeme.endsGroup = true by rw [hequals]; rfl)
        (show depth + key.nesting ≤ maxNesting by omega)
        (show 2 * (front.length + 1) ≤ fuel by omega) .absent last (back ++ stop :: rest)
      have hpresent : tree.isAbsent = false := by
        rw [← Expr.isAbsent_eraseSpans, htree, Bool.eq_false_iff, ne_eq, Expr.isAbsent_iff]
        exact hkeyed.1
      obtain ⟨fuel', closed, hfuel', hstep, hpending, hkeyless, hentries⟩ :=
        behind.accepts hkeyed.2.2 hback hstop
          (show depth + behind.nesting ≤ maxNesting by omega)
          (show 2 * (back.length + 1) + 1 ≤ fuel by omega) opening { done with key := tree }
          equals rest
      rw [Parser.Statements.pending_of_present hpresent, htree] at hkeyless hentries
      refine ⟨fuel', closed, by omega, ?_, hpending, hkeyless, hentries⟩
      rw [List.append_assoc, List.cons_append, Parser.statements_key hgroup hequals hpresent,
        hstep]

end

end Grammar

/-! ## Whole token lists -/

/-- The end of the input stands at one place only, behind all other tokens. -/
theorem Parser.eq_of_append_end {tokens read rest : List Token} {stop found : Token}
    (htokens : ∀ token ∈ tokens, token.lexeme ≠ .endOfInput) (hfound : found.lexeme = .endOfInput)
    (h : tokens ++ [stop] = read ++ found :: rest) : read = tokens := by
  rcases List.append_eq_append_iff.mp h with ⟨more, rfl, hstop⟩ | ⟨more, rfl, hstop⟩
  · cases more with
    | nil => exact List.append_nil tokens
    | cons token more => simp at hstop
  · cases more with
    | nil => exact (List.append_nil read).symm
    | cons token more =>
        obtain ⟨rfl, -⟩ := List.cons.inj hstop
        exact absurd hfound (htokens found (by simp))

namespace Expr

variable {tokens : List Token} {stop : Token}

theorem exists_derivation_of_ofTokens (hstop : stop.lexeme = .endOfInput)
    (htokens : ∀ token ∈ tokens, token.lexeme ≠ .endOfInput) {e : Expr}
    (h : ofTokens (tokens ++ [stop]) = .ok e) :
    ∃ derivation : Grammar.Group, derivation.lexemes = tokens.map Token.lexeme ∧
      derivation.Admissible ∧ e.eraseSpans = derivation.tree := by
  obtain ⟨first, hfirst⟩ := ofTokens_append_end tokens stop
  rw [hfirst] at h
  obtain ⟨group, hgroup, h⟩ := exists_of_bind_eq_ok h
  split at h
  · next hfound =>
      cases h
      obtain ⟨derivation, read, hread⟩ := (Parser.derives _).operands hgroup (Nat.zero_le _)
        ⟨stop, by simp, hstop⟩
      obtain rfl := Parser.eq_of_append_end htokens hfound hread.tokens_eq
      refine ⟨derivation, hread.lexemes_eq.symm, ⟨hread.keyed, ?_⟩, hread.tree_eq⟩
      have := hread.nesting_le
      omega
  · cases h

theorem ofTokens_of_admissible (hstop : stop.lexeme = .endOfInput) {derivation : Grammar.Group}
    (hlexemes : derivation.lexemes = tokens.map Token.lexeme) (h : derivation.Admissible) :
    ∃ e, ofTokens (tokens ++ [stop]) = .ok e ∧ e.eraseSpans = derivation.tree := by
  obtain ⟨first, hfirst⟩ := ofTokens_append_end tokens stop
  have hfuel : 2 * (tokens.length + 1) ≤ 2 * (tokens ++ [stop]).length + 1 := by
    rw [List.length_append, List.length_singleton]
    omega
  have hnesting : 0 + derivation.nesting ≤ maxNesting := by
    have := h.nesting_le
    omega
  obtain ⟨tree, hgroup, htree⟩ := derivation.accepts h.keyed hlexemes.symm
    (show stop.lexeme.endsGroup = true by rw [hstop]; rfl) hnesting hfuel .absent first []
  refine ⟨tree, ?_, htree⟩
  rw [hfirst, hgroup, ok_bind]
  simp only [hstop]

/-- The spellings and positions of tokens decide no more than the spans of a tree. -/
theorem exists_ofTokens_of_lexemes {tokens' : List Token} {stop' : Token}
    (hstop : stop.lexeme = .endOfInput) (hstop' : stop'.lexeme = .endOfInput)
    (htokens : ∀ token ∈ tokens, token.lexeme ≠ .endOfInput)
    (hlexemes : tokens'.map Token.lexeme = tokens.map Token.lexeme) {e : Expr}
    (h : ofTokens (tokens ++ [stop]) = .ok e) :
    ∃ e', ofTokens (tokens' ++ [stop']) = .ok e' ∧ e'.eraseSpans = e.eraseSpans := by
  obtain ⟨derivation, hderivation, hadmissible, htree⟩ :=
    exists_derivation_of_ofTokens hstop htokens h
  obtain ⟨e', he', htree'⟩ :=
    ofTokens_of_admissible hstop' (hderivation.trans hlexemes.symm) hadmissible
  exact ⟨e', he', htree'.trans htree.symm⟩

/-- Tokens before the end of the input are read as an expression exactly if they have an
admissible derivation, and the tree that is read is then, up to spans, the tree of each
such derivation. -/
theorem ofTokens_derivation (htokens : ∀ token ∈ tokens, token.lexeme ≠ .endOfInput)
    (hstop : stop.lexeme = .endOfInput) :
    ((∃ e, ofTokens (tokens ++ [stop]) = .ok e) ↔
      ∃ derivation : Grammar.Group,
        derivation.lexemes = tokens.map Token.lexeme ∧ derivation.Admissible) ∧
    ∀ e, ofTokens (tokens ++ [stop]) = .ok e → ∀ derivation : Grammar.Group,
      derivation.lexemes = tokens.map Token.lexeme → derivation.Admissible →
      e.eraseSpans = derivation.tree := by
  refine ⟨⟨?_, ?_⟩, ?_⟩
  · rintro ⟨e, he⟩
    obtain ⟨derivation, hlexemes, hadmissible, -⟩ :=
      exists_derivation_of_ofTokens hstop htokens he
    exact ⟨derivation, hlexemes, hadmissible⟩
  · rintro ⟨derivation, hlexemes, hadmissible⟩
    obtain ⟨e, he, -⟩ := ofTokens_of_admissible hstop hlexemes hadmissible
    exact ⟨e, he⟩
  · intro e he derivation hlexemes hadmissible
    obtain ⟨e', he', htree⟩ := ofTokens_of_admissible hstop hlexemes hadmissible
    rw [he] at he'
    cases he'
    exact htree

/-- The derivation of a set, a group in parentheses and a colon: a key without a value, a
value without a key, and a pattern of two operands. -/
def mixedDerivation : Grammar.Group :=
  .operand
    (.set (.more (.keyed (.operand (.literal (.encode 5)) .done) (.value .done))
      (.last (.value (.operand (.literal (.encode 6)) .done)))))
    (.operand (.paren (.operand (.literal (.encode 1)) (.operand .scope .done)))
      (.function (.operand .scope .done)))

/-- The tokens of the derivation. -/
def mixedTokens : List Token := mixedDerivation.lexemes.map fun lexeme => ⟨lexeme, [], .none⟩

/-- The tree of the tokens is known from their derivation: the key without a value is
gone, and the other value is numbered. -/
theorem ofTokens_mixedTokens :
    (∀ token ∈ mixedTokens, token.lexeme ≠ .endOfInput) ∧
    ((∃ e, ofTokens (mixedTokens ++ [⟨.endOfInput, [], .none⟩]) = .ok e) ↔
      ∃ derivation : Grammar.Group,
        derivation.lexemes = mixedTokens.map Token.lexeme ∧ derivation.Admissible) ∧
    ∀ e, ofTokens (mixedTokens ++ [⟨.endOfInput, [], .none⟩]) = .ok e →
      e.eraseSpans = .combine .none
        (.set .none [(.literal .none (.encode 0), .literal .none (.encode 6))])
        (.function .none (.combine .none (.literal .none (.encode 1)) (.scope .none))
          (.scope .none)) := by
  have htokens : ∀ token ∈ mixedTokens, token.lexeme ≠ .endOfInput := by decide
  have hlexemes : mixedDerivation.lexemes = mixedTokens.map Token.lexeme := by
    rw [mixedTokens, List.map_map]
    exact (List.map_id _).symm
  have hkeyed : mixedDerivation.Keyed := by
    simp [mixedDerivation, Grammar.Group.Keyed, Grammar.Operand.Keyed, Grammar.Statements.Keyed,
      Grammar.Statement.Keyed, Grammar.Group.treeOnto, Grammar.Operand.tree, Grammar.join]
  have hnesting : mixedDerivation.nesting ≤ maxNesting := by decide
  have hstop : (⟨.endOfInput, [], .none⟩ : Token).lexeme = .endOfInput := rfl
  obtain ⟨haccepted, htree⟩ := ofTokens_derivation htokens hstop
  exact ⟨htokens, haccepted,
    fun e he => htree e he mixedDerivation hlexemes ⟨hkeyed, hnesting⟩⟩

end Expr

end BitLang
