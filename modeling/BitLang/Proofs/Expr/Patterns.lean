/-
# Patterns

A colon makes the operand before it the pattern of a function, and the operands before that one
stay in front of the function.  The reader keeps no list of operands.  It takes its chain apart
instead: the last combination of a chain is made of all operands but the last and of the last one.

Two things can make a chain something else.  Operands that denote nothing leave no trace in it, and
a chain in parentheses that is the first to denote something takes the place of the whole chain.  A
colon right behind such a chain splits what stands in the parentheses (`ofTokens_pair_colon`).
There is no other exception (`lastIsPattern_iff`).
-/

import BitLang.Proofs.Expr.Places
import BitLang.Proofs.Expr.Reading
import BitLang.Proofs.Expr.Unambiguous

namespace BitLang

namespace Grammar

variable {operands : List Operand} {body : Group}

/-! ## What becomes of the operand before a colon -/

theorem chainOf_concat (others : List Operand) (last : Operand) :
    chainOf (others ++ [last]) = join (chainOf others) last.tree :=
  List.foldl_concat _ _ _ _

theorem join_eq_absent_iff {chain next : Expr} :
    join chain next = .absent ↔ chain = .absent ∧ next = .absent := by
  cases chain <;> simp [join]

/-- Operands make a chain unless none of them denotes anything. -/
theorem chainOf_eq_absent_iff :
    chainOf operands = .absent ↔ ∀ operand ∈ operands, operand.tree = .absent := by
  induction operands using List.reverseRecOn with
  | nil => simp [chainOf]
  | append_singleton others last ih =>
      rw [chainOf_concat, join_eq_absent_iff, ih, List.forall_mem_append, List.forall_mem_singleton]

/-- The operand that is put on a chain last becomes the pattern, unless it took the place of the
chain and is a combination itself. -/
theorem functionOnto_join_iff (chain operand body : Expr) :
    functionOnto (join chain operand) body = join chain (.function .none operand body) ↔
      ¬(chain = .absent ∧ ∃ span left right, operand = .combine span left right) := by
  cases chain with
  | absent =>
      cases operand with
      | combine span left right =>
          have hpart : right ≠ .combine span left right := fun h => by
            have hsize := congrArg sizeOf h
            simp at hsize
          refine iff_of_false ?_ (by simp)
          cases left <;> simp [functionOnto, join, hpart]
      | _ => simp [functionOnto, join]
  | _ => simp [functionOnto, join]

/-- In the tree of a group with a colon, the operand before the colon is the pattern of the
function, and the operands before that one are the chain in front of it. -/
def LastIsPattern (operands : List Operand) (body : Group) (tree : Expr) : Prop :=
  ∀ others last, operands = others ++ [last] →
    tree = join (chainOf others) (.function .none last.tree body.tree)

/-- The last operand is a chain in parentheses, and no operand before it denotes anything. -/
def LastIsWholeChain (operands : List Operand) : Prop :=
  ∃ others last, operands = others ++ [last] ∧ (∀ other ∈ others, other.tree = .absent) ∧
    ∃ span left right, last.tree = .combine span left right

/-- The operand before a colon is the pattern, unless the chain is that operand as a whole. -/
theorem lastIsPattern_iff (operands : List Operand) (body : Group) :
    LastIsPattern operands body (functionBehind operands body).tree ↔
      ¬LastIsWholeChain operands := by
  rw [tree_functionBehind]
  rcases operands.eq_nil_or_concat' with rfl | ⟨others, last, rfl⟩
  · simp [LastIsPattern, LastIsWholeChain]
  · have hlast := functionOnto_join_iff (chainOf others) last.tree body.tree
    rw [← chainOf_concat, chainOf_eq_absent_iff] at hlast
    constructor
    · rintro h ⟨others', last', heq, hsplit⟩
      obtain ⟨rfl, hlast'⟩ := List.append_inj' heq rfl
      obtain rfl := List.singleton_inj.mp hlast'
      exact hlast.mp (h _ _ rfl) hsplit
    · intro h others' last' heq
      obtain ⟨rfl, hlast'⟩ := List.append_inj' heq rfl
      obtain rfl := List.singleton_inj.mp hlast'
      exact hlast.mpr fun hsplit => h ⟨others, last, rfl, hsplit⟩

end Grammar

namespace Parser

/-- Whatever run of the reader takes tokens as a group, it takes them to the mark that ends their
derivation, and it makes the tree of that derivation. -/
theorem operands_eq_of_derivation {fuel depth : Nat} {chain : Expr} {last close : Token}
    {read back : List Token} {group : Group} {derivation : Grammar.Group}
    (hread : read.map Token.lexeme = derivation.lexemes) (hclose : close.lexeme.endsGroup = true)
    (hend : HasEnd (close :: back)) (hdepth : depth ≤ maxNesting)
    (h : operands fuel depth chain last (read ++ close :: back) = .ok group) :
    group.stop = close ∧ group.rest = back ∧
      group.tree.eraseSpans = derivation.treeOnto chain.eraseSpans := by
  have hall : HasEnd (read ++ close :: back) := by
    obtain ⟨token, hmem, htoken⟩ := hend
    exact ⟨token, List.mem_append_right _ hmem, htoken⟩
  obtain ⟨derivation', read', hderived⟩ := (derives fuel).operands h hdepth hall
  have hlexemes : derivation.lexemes ++ close.lexeme :: back.map Token.lexeme =
      derivation'.lexemes ++ group.stop.lexeme :: group.rest.map Token.lexeme := by
    rw [← hread, ← hderived.lexemes_eq, ← List.map_cons, ← List.map_append, hderived.tokens_eq,
      List.map_append, List.map_cons]
  obtain ⟨rfl, -, -⟩ := derivation.eq_of_lexemes_append derivation' hclose hderived.endsGroup
    hlexemes
  have hlength : read.length = read'.length := by
    rw [← List.length_map Token.lexeme, hread, ← hderived.lexemes_eq, List.length_map]
  obtain ⟨-, hbehind⟩ := List.append_inj hderived.tokens_eq hlength
  obtain ⟨rfl, rfl⟩ := List.cons.inj hbehind
  exact ⟨rfl, rfl, hderived.tree_eq⟩

end Parser

namespace Grammar

/-- The group of a colon: the tokens of its operands come right before the colon, from where the
group begins, and those of the body come right behind it, up to a token that ends groups. -/
structure GroupOfColon (before after : List Token) (place : GroupPlace) (operands : List Operand)
    (body : Group) (group inside : List Token) (close : Token) (back : List Token) : Prop where
  before_eq : ∃ front, before = front ++ group ∧ front.map Token.lexeme = place.front
  begins : Begins place.front
  operands_eq : group.map Token.lexeme = operands.flatMap Operand.lexemes
  after_eq : after = inside ++ close :: back
  body_eq : inside.map Token.lexeme = body.lexemes
  endsGroup : close.lexeme.endsGroup = true

/-- The end of the input is not in the body of the function, so it comes behind. -/
theorem GroupOfColon.hasEnd {before after group inside back : List Token} {close : Token}
    {place : GroupPlace} (h : GroupOfColon before after place operands body group inside close back)
    (hend : Parser.HasEnd after) : Parser.HasEnd (close :: back) := by
  obtain ⟨token, hmem, htoken⟩ := hend
  rw [h.after_eq] at hmem
  rcases List.mem_append.mp hmem with hinside | hbehind
  · refine absurd ?_ body.endOfInput_notMem_lexemes
    rw [← h.body_eq, ← htoken]
    exact List.mem_map_of_mem hinside
  · exact ⟨token, hbehind, htoken⟩

/-- Every colon in a text has a group. -/
theorem exists_groupOfColon {derivation : Group} (h : derivation.Admissible)
    {before after : List Token} {colon stop : Token} (hcolon : colon.lexeme = .colon)
    (hstop : stop.lexeme.endsGroup = true)
    (hlexemes : (before ++ colon :: after).map Token.lexeme = derivation.lexemes)
    (rest : List Token) :
    ∃ place operands body group inside close back,
      GroupOfColon before (after ++ stop :: rest) place operands body group inside close back ∧
      derivation = place.fill (functionBehind operands body) ∧
      (functionBehind operands body).Admissible := by
  have hsplit : derivation.lexemes = before.map Token.lexeme ++ .colon ::
      after.map Token.lexeme := by
    rw [← hlexemes, List.map_append, List.map_cons, hcolon]
  obtain ⟨place, operands, body, hat⟩ := derivation.colonInGroup h.keyed h.nesting_le .whole
    (by simp [Begins, GroupPlace.whole]) (by simp [Ends, GroupPlace.whole]) [] withinLimit_nil
    hsplit
  obtain ⟨front, group, rfl, hfront, hgroup⟩ := List.map_eq_append_iff.mp hat.before_eq
  have hafter : after.map Token.lexeme = body.lexemes ++ place.back := by
    rw [← hat.after_eq]
    exact (List.append_nil _).symm
  obtain ⟨inside, behind, rfl, hinside, hbehind⟩ := List.map_eq_append_iff.mp hafter
  have hadmissible : (functionBehind operands body).Admissible := ⟨hat.keyed, hat.nesting_le⟩
  -- the group ends with the text, or else at a token of it
  cases behind with
  | nil =>
      exact ⟨place, operands, body, group, inside, stop, rest,
        ⟨⟨front, rfl, hfront⟩, hat.begins, hgroup, by simp, hinside, hstop⟩, hat.text_eq,
        hadmissible⟩
  | cons close behind =>
      have hclose : close.lexeme.endsGroup = true := hat.ends _ (by simp [← hbehind])
      exact ⟨place, operands, body, group, inside, close, behind ++ stop :: rest,
        ⟨⟨front, rfl, hfront⟩, hat.begins, hgroup, by simp, hinside, hclose⟩, hat.text_eq,
        hadmissible⟩

end Grammar

namespace Expr

open Grammar

/-- In every text that is read, every colon is in a group of operands, and the tree of the text is
made of the tree of that group.  Whatever run reads the group makes the operand before the colon
the pattern of a function, behind the chain of the operands before that one, exactly if the operand
is not a chain in parentheses behind nothing.  Some run does read the group. -/
theorem exists_pattern_of_colon {before after rest : List Token} {colon stop : Token}
    (hcolon : colon.lexeme = .colon)
    (htokens : ∀ token ∈ before ++ colon :: after, token.lexeme ≠ .endOfInput)
    (hstop : stop.lexeme = .endOfInput) {e : Expr}
    (h : ofTokens (before ++ colon :: after ++ stop :: rest) = .ok e) :
    ∃ place operands body group inside close back,
      GroupOfColon before (after ++ stop :: rest) place operands body group inside close back ∧
      e.eraseSpans = (place.fill (functionBehind operands body)).tree ∧
      (∃ fuel last tree, Parser.operands fuel 0 .absent last
        (group ++ colon :: (after ++ stop :: rest)) = .ok ⟨tree, close, back⟩) ∧
      ∀ fuel depth last found, depth ≤ maxNesting →
        Parser.operands fuel depth .absent last (group ++ colon :: (after ++ stop :: rest)) =
          .ok found →
        found.stop = close ∧ found.rest = back ∧
        found.tree.eraseSpans = (functionBehind operands body).tree ∧
        (LastIsPattern operands body found.tree.eraseSpans ↔ ¬LastIsWholeChain operands) := by
  obtain ⟨derivation, hlexemes, hadmissible, htext⟩ := exists_derivation_before_end htokens hstop h
  have hends : stop.lexeme.endsGroup = true := by
    rw [hstop]
    rfl
  obtain ⟨place, operands, body, group, inside, close, back, hgroup, rfl, hfunction⟩ :=
    exists_groupOfColon hadmissible hcolon hends hlexemes rest
  have hread : (group ++ colon :: inside).map Token.lexeme =
      (functionBehind operands body).lexemes := by
    rw [lexemes_functionBehind, List.map_append, List.map_cons, hgroup.operands_eq, hcolon,
      hgroup.body_eq]
  have htaken : group ++ colon :: (after ++ stop :: rest) =
      group ++ colon :: inside ++ close :: back := by
    rw [hgroup.after_eq, List.append_assoc, List.cons_append]
  have hend : Parser.HasEnd (close :: back) := hgroup.hasEnd ⟨stop, by simp, hstop⟩
  have hnesting : 0 + (functionBehind operands body).nesting ≤ maxNesting := by
    rw [Nat.zero_add]
    exact hfunction.nesting_le
  refine ⟨place, operands, body, group, inside, close, back, hgroup, htext, ?_, ?_⟩
  · rw [htaken]
    obtain ⟨tree, hrun, -⟩ := (functionBehind operands body).accepts hfunction.keyed hread
      hgroup.endsGroup hnesting (Nat.le_refl _) .absent stop back
    exact ⟨_, _, tree, hrun⟩
  · intro fuel depth last found hdepth hrun
    rw [htaken] at hrun
    obtain ⟨hfound, hback, htree⟩ :=
      Parser.operands_eq_of_derivation hread hgroup.endsGroup hend hdepth hrun
    refine ⟨hfound, hback, htree, ?_⟩
    rw [htree]
    exact lastIsPattern_iff operands body

/-- A bit and the scope in parentheses. -/
def pairOperand : Operand :=
  .paren (.operand (.literal ⟨1, [0x80]⟩) (.operand .scope .done))

/-- The tokens of the pair. -/
def pairTokens : List Token := pairOperand.lexemes.map Token.bare

/-- Behind the scope, the pair is the pattern of a function as a whole. -/
theorem exists_pattern_of_scope_pair :
    ∃ e, ofTokens ((Token.bare .scope :: pairTokens) ++ Token.bare .colon :: [Token.bare .scope] ++
        Token.bare .endOfInput :: []) = .ok e ∧
    ∃ place operands body group inside close back,
      GroupOfColon (Token.bare .scope :: pairTokens)
        ([Token.bare .scope] ++ Token.bare .endOfInput :: []) place operands body group inside
        close back ∧
      e.eraseSpans = (place.fill (functionBehind operands body)).tree ∧
      (∃ fuel last tree, Parser.operands fuel 0 .absent last
        (group ++ Token.bare .colon :: ([Token.bare .scope] ++ Token.bare .endOfInput :: [])) =
          .ok ⟨tree, close, back⟩) ∧
      ∀ fuel depth last found, depth ≤ maxNesting →
        Parser.operands fuel depth .absent last
            (group ++ Token.bare .colon :: ([Token.bare .scope] ++ Token.bare .endOfInput :: [])) =
          .ok found →
        found.stop = close ∧ found.rest = back ∧
        found.tree.eraseSpans = (functionBehind operands body).tree ∧
        (LastIsPattern operands body found.tree.eraseSpans ↔ ¬LastIsWholeChain operands) := by
  have hcolon : (Token.bare .colon).lexeme = .colon := rfl
  have htokens : ∀ token ∈ (Token.bare .scope :: pairTokens) ++ Token.bare .colon ::
      [Token.bare .scope], token.lexeme ≠ .endOfInput := by decide
  have hstop : (Token.bare .endOfInput).lexeme = .endOfInput := rfl
  have hread : ∃ e, ofTokens ((Token.bare .scope :: pairTokens) ++ Token.bare .colon ::
      [Token.bare .scope] ++ Token.bare .endOfInput :: []) = .ok e := ⟨_, rfl⟩
  obtain ⟨e, he⟩ := hread
  exact ⟨e, he, exists_pattern_of_colon hcolon htokens hstop he⟩

/-- With nothing before it, the pair is split: the bit is left in front of a function whose pattern
is the scope alone. -/
theorem ofTokens_pair_colon :
    ∃ e, ofTokens (pairTokens ++ Token.bare .colon :: [Token.bare .scope] ++
        [Token.bare .endOfInput]) = .ok e ∧
      e.eraseSpans = .combine .none (.literal .none ⟨1, [0x80]⟩)
        (.function .none (.scope .none) (.scope .none)) ∧
      ¬LastIsPattern [pairOperand] (.operand .scope .done) e.eraseSpans := by
  refine ⟨_, rfl, rfl, ?_⟩
  intro h
  cases h [] pairOperand rfl

end Expr

end BitLang
