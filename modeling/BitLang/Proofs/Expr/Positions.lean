/-
# Where trees and syntax errors stand

A tree is read from tokens, and so are the positions of its nodes: each of them is the position
of a token, and not of the end of the input.  The same holds of a syntax error, with one
exception.  A parenthesis or a function that nests too deeply is reported where its inside
begins, and that may be the end of the input.
-/

import BitLang.Proofs.Expr.Steps

namespace BitLang

variable {P : Position → Prop}

/-! ## Trees -/

namespace Expr

/-- The position of every node has the property. -/
def Placed (P : Position → Prop) (e : Expr) : Prop := e.All fun node => P node.pos

theorem placed_absent (hnone : P .none) : absent.Placed P := hnone

namespace Placed

variable {e chain next : Expr}

theorem pos (h : e.Placed P) : P e.pos := All.node h

theorem start_spanOr (h : e.Placed P) {pos : Position} (hpos : P pos) :
    P (e.spanOr pos).start := by
  cases e with
  | absent => exact hpos
  | literal | scope => exact h
  | set | function | combine => exact h.1

theorem follow (hchain : chain.Placed P) (hnext : next.Placed P) (pos : Position) :
    (chain.follow next pos).Placed P := by
  cases chain with
  | absent => exact hnext
  | _ => exact ⟨hchain.pos, hchain, hnext⟩

theorem splitLast (hnone : P .none) (h : chain.Placed P) :
    chain.splitLast.1.Placed P ∧ chain.splitLast.2.Placed P := by
  cases chain with
  | combine span left right => exact h.2
  | _ => exact ⟨hnone, h⟩

end Placed

end Expr

namespace Parser

theorem placed_functionOf (hnone : P .none) {chain : Expr} (hchain : chain.Placed P)
    {colon : Token} (hcolon : P colon.pos) {body : Group} (hbody : body.tree.Placed P) :
    (functionOf chain colon body).Placed P := by
  obtain ⟨houter, hpattern⟩ := hchain.splitLast hnone
  refine houter.follow ?_ _
  exact ⟨hpattern.start_spanOr hcolon, hpattern, hbody⟩

/-- The positions in the statements read so far have the property. -/
structure Statements.Placed (P : Position → Prop) (s : Statements) : Prop where
  key : s.key.Placed P
  entries : ∀ entry ∈ s.entries.toList, entry.1.Placed P ∧ entry.2.Placed P

theorem Statements.Placed.close (hnone : P .none) {s : Statements} (h : s.Placed P) {value : Expr}
    (hvalue : value.Placed P) : (s.close value).Placed P := by
  have hpush {key : Expr} (hkey : key.Placed P) :
      ∀ entry ∈ (s.entries.push (key, value)).toList, entry.1.Placed P ∧ entry.2.Placed P := by
    rw [Array.toList_push, List.forall_mem_append, List.forall_mem_singleton]
    exact ⟨h.entries, hkey, hvalue⟩
  unfold Statements.close
  split
  · exact ⟨hnone, h.entries⟩
  · split
    · exact ⟨hnone, hpush hvalue.pos⟩
    · exact ⟨hnone, hpush h.key⟩

/-! ## Readings -/

/-- The error is at a position with the property, or says at the end of the input that something
nests too deeply. -/
def Blames (P : Position → Prop) (last : Position) (error : ParseError) : Prop :=
  ∃ e, error = .malformed e ∧ (P e.pos ∨ e.cause = .tooDeep ∧ e.pos = last)

theorem blames_of {last pos : Position} (h : P pos) (cause : SyntaxError.Cause) :
    Blames P last (.malformed ⟨pos, cause⟩) := ⟨_, rfl, .inl h⟩

/-- The token is not the end of the input, and its position has the property. -/
def Marks (P : Position → Prop) (token : Token) : Prop :=
  token.lexeme ≠ .endOfInput ∧ P token.pos

/-- What comes of reading tokens and the end of the input behind them: a tree at positions with
the property and some of the tokens, or an error. -/
def Placing (P : Position → Prop) (stop : Token) (before : List Token) :
    Except ParseError Group → Prop
  | .ok group => group.tree.Placed P ∧
      ∃ left, left <:+ before ∧ group.stop :: group.rest = left ++ [stop]
  | .error error => Blames P stop.pos error

/-- What comes of reading the statements of a set, which a closing brace ends. -/
def PlacingSet (P : Position → Prop) (stop : Token) (before : List Token)
    (result : Except ParseError Group) : Prop :=
  Placing P stop before result ∧
    ∀ group, result = .ok group → group.stop.lexeme = .closeBrace

section Reading

variable {stop token : Token} {before more : List Token} {result : Except ParseError Group}
  {group : Group}

theorem Placing.of_suffix (h : Placing P stop more result) (hsuffix : more <:+ before) :
    Placing P stop before result := by
  cases result with
  | error error => exact h
  | ok group =>
      obtain ⟨htree, left, hleft, heq⟩ := h
      exact ⟨htree, left, hleft.trans hsuffix, heq⟩

theorem Placing.of_cons (h : Placing P stop more result) :
    Placing P stop (token :: more) result :=
  h.of_suffix (List.suffix_cons token more)

/-- A reading that goes on after another. -/
theorem Placing.bind {next : Group → Except ParseError Group} (h : Placing P stop more result)
    (hnext : ∀ group, result = .ok group → group.tree.Placed P →
      ∀ left, left <:+ more → group.stop :: group.rest = left ++ [stop] →
      Placing P stop before (next group)) : Placing P stop before (result >>= next) := by
  cases result with
  | error error => exact h
  | ok group =>
      obtain ⟨htree, left, hleft, heq⟩ := h
      exact hnext group rfl htree left hleft heq

theorem placingSet_of_blames {error : ParseError} (h : Blames P stop.pos error) :
    PlacingSet P stop before (.error error) := by
  refine ⟨h, ?_⟩
  intro group hok
  cases hok

/-- A group that some other mark than the end of the input has ended leaves fewer tokens. -/
theorem exists_of_stop (hstop : stop.lexeme = .endOfInput) (hsuffix : more <:+ before)
    (h : group.stop :: group.rest = more ++ [stop]) (hne : group.stop.lexeme ≠ .endOfInput) :
    ∃ rest, group.rest = rest ++ [stop] ∧ group.stop :: rest <:+ before := by
  cases more with
  | nil =>
      rw [List.nil_append, List.cons.injEq] at h
      rw [h.1] at hne
      exact absurd hstop hne
  | cons first rest =>
      rw [List.cons_append, List.cons.injEq] at h
      exact ⟨rest, h.2, h.1 ▸ hsuffix⟩

end Reading

/-- What is read with enough fuel, at least twice the number of tokens, stands where it should. -/
structure Places (P : Position → Prop) (stop : Token) (fuel : Nat) : Prop where
  operands : ∀ {before chain}, (∀ token ∈ before, Marks P token) → chain.Placed P →
    2 * (before.length + 1) ≤ fuel → ∀ depth last,
    Placing P stop before (Parser.operands fuel depth chain last (before ++ [stop]))
  statements : ∀ {before opening done}, (∀ token ∈ before, Marks P token) → P opening.pos →
    done.Placed P → 2 * (before.length + 1) + 1 ≤ fuel → ∀ depth last,
    PlacingSet P stop before
      (Parser.statements fuel depth opening done last (before ++ [stop]))

namespace Places

variable {stop token : Token} {fuel depth : Nat} {chain : Expr} {more : List Token}

/-- Where the inside of a parenthesis or a function that nests too deeply begins. -/
theorem blames_nextPos (hmore : ∀ token ∈ more, Marks P token) (token : Token) :
    Blames P stop.pos (.malformed ⟨nextPos token (more ++ [stop]), .tooDeep⟩) := by
  cases more with
  | nil => exact ⟨_, rfl, .inr ⟨rfl, rfl⟩⟩
  | cons first rest => exact blames_of (hmore first List.mem_cons_self).2 _

section Step

variable (hnone : P .none) (hstop : stop.lexeme = .endOfInput) (ih : Places P stop fuel)
  (htoken : Marks P token) (hmore : ∀ other ∈ more, Marks P other) (hchain : chain.Placed P)
  (hfuel : 2 * (more.length + 2) ≤ fuel + 1) (last : Token)

include hstop ih hmore hchain hfuel in
/-- The operands behind a group that a closing mark has ended. -/
theorem resume {inner : Group} {left : List Token} (hleft : left <:+ more)
    (heq : inner.stop :: inner.rest = left ++ [stop]) (hne : inner.stop.lexeme ≠ .endOfInput) :
    Placing P stop (token :: more)
      (Parser.operands fuel depth chain inner.stop inner.rest) := by
  obtain ⟨rest, hrest, hsuffix⟩ := exists_of_stop hstop hleft heq hne
  have hrestMore : rest <:+ more := (List.suffix_cons ..).trans hsuffix
  have hlength := hrestMore.length_le
  have hmarks : ∀ other ∈ rest, Marks P other := fun other hmem =>
    hmore other (hrestMore.subset hmem)
  rw [hrest]
  exact ((ih.operands hmarks hchain (by omega) depth inner.stop).of_suffix hrestMore).of_cons

include hnone ih htoken hmore hchain hfuel

theorem colon (h : token.lexeme = .colon) :
    Placing P stop (token :: more)
      (Parser.operands (fuel + 1) depth chain last (token :: (more ++ [stop]))) := by
  by_cases hdepth : depth < maxNesting
  · rw [operands_colon h hdepth]
    have hinside := ih.operands hmore (Expr.placed_absent hnone) (by omega) (depth + 1) token
    refine hinside.bind fun body _ htree left hleft heq => ?_
    have hlength := hleft.length_le
    have hmarks : ∀ other ∈ left, Marks P other := fun other hmem =>
      hmore other (hleft.subset hmem)
    rw [heq]
    have hfunction := placed_functionOf hnone hchain htoken.2 htree
    exact ((ih.operands hmarks hfunction (by omega) depth token).of_suffix hleft).of_cons
  · rw [operands_tooDeep_inside (.inr h) (Nat.le_of_not_lt hdepth)]
    exact blames_nextPos hmore token

include hstop

theorem openParen (h : token.lexeme = .openParen) :
    Placing P stop (token :: more)
      (Parser.operands (fuel + 1) depth chain last (token :: (more ++ [stop]))) := by
  by_cases hdepth : depth < maxNesting
  · rw [operands_openParen h hdepth]
    have hinside := ih.operands hmore (Expr.placed_absent hnone) (by omega) (depth + 1) token
    refine hinside.bind fun inner _ htree left hleft heq => ?_
    split
    · next hclose =>
        exact resume hstop ih hmore (hchain.follow htree _) hfuel hleft heq (by simp [hclose])
    · exact blames_of htoken.2 _
    · next hend =>
        obtain ⟨rest, -, hsuffix⟩ := exists_of_stop hstop hleft heq hend
        exact blames_of (hmore _ (hsuffix.subset List.mem_cons_self)).2 _
  · rw [operands_tooDeep_inside (.inl h) (Nat.le_of_not_lt hdepth)]
    exact blames_nextPos hmore token

theorem openBrace (h : token.lexeme = .openBrace) :
    Placing P stop (token :: more)
      (Parser.operands (fuel + 1) depth chain last (token :: (more ++ [stop]))) := by
  by_cases hdepth : depth < maxNesting
  · rw [operands_openBrace h hdepth]
    have hdone : Statements.Placed P ⟨.absent, 0, #[]⟩ := ⟨hnone, nofun⟩
    obtain ⟨hinside, hclose⟩ := ih.statements hmore htoken.2 hdone (by omega) (depth + 1) token
    refine hinside.bind fun inner hinner htree left hleft heq => ?_
    exact resume hstop ih hmore (hchain.follow htree _) hfuel hleft heq
      (by simp [hclose inner hinner])
  · rw [operands_tooDeep_brace h (Nat.le_of_not_lt hdepth)]
    exact blames_of htoken.2 _

theorem operands_cons :
    Placing P stop (token :: more)
      (Parser.operands (fuel + 1) depth chain last (token :: (more ++ [stop]))) := by
  rcases token.lexeme.kinds with h | ⟨bits, h⟩ | h | h | h | h | h | h
  · rw [operands_endsGroup h]
    exact ⟨hchain, token :: more, List.suffix_refl _, rfl⟩
  · rw [operands_literal h]
    have hliteral : (Expr.literal token.span bits).Placed P := htoken.2
    exact (ih.operands hmore (hchain.follow hliteral _) (by omega) depth token).of_cons
  · rw [operands_scope h]
    have hscope : (Expr.scope token.span).Placed P := htoken.2
    exact (ih.operands hmore (hchain.follow hscope _) (by omega) depth token).of_cons
  · exact ih.openParen hnone hstop htoken hmore hchain hfuel last h
  · exact ih.openBrace hnone hstop htoken hmore hchain hfuel last h
  · exact ih.colon hnone htoken hmore hchain hfuel last h
  · rw [operands_unexpected (.inl h)]
    exact blames_of htoken.2 _
  · rw [operands_unexpected (.inr h)]
    exact blames_of htoken.2 _

end Step

theorem operands_succ (hnone : P .none) (hstop : stop.lexeme = .endOfInput)
    (ih : Places P stop fuel) {before : List Token} (hbefore : ∀ token ∈ before, Marks P token)
    (hchain : chain.Placed P) (hfuel : 2 * (before.length + 1) ≤ fuel + 1) (last : Token) :
    Placing P stop before
      (Parser.operands (fuel + 1) depth chain last (before ++ [stop])) := by
  cases before with
  | nil =>
      rw [List.nil_append, operands_endsGroup (by rw [hstop]; rfl)]
      exact ⟨hchain, [], List.suffix_refl _, rfl⟩
  | cons token more =>
      obtain ⟨htoken, hmore⟩ := List.forall_mem_cons.mp hbefore
      exact ih.operands_cons hnone hstop htoken hmore hchain hfuel last

theorem statements_succ (hnone : P .none) (hstop : stop.lexeme = .endOfInput)
    (ih : Places P stop fuel) {before : List Token} (hbefore : ∀ token ∈ before, Marks P token)
    {opening : Token} (hopening : P opening.pos) {done : Statements} (hdone : done.Placed P)
    (hfuel : 2 * (before.length + 1) + 1 ≤ fuel + 1) (last : Token) :
    PlacingSet P stop before
      (Parser.statements (fuel + 1) depth opening done last (before ++ [stop])) := by
  have hread := ih.operands hbefore (Expr.placed_absent hnone) (by omega) depth last
  rw [Parser.statements]
  generalize Parser.operands fuel depth .absent last (before ++ [stop]) = result at hread
  cases result with
  | error error => exact placingSet_of_blames hread
  | ok value =>
      obtain ⟨htree, left, hleft, heq⟩ := hread
      -- unless the end of the input has ended the value, another statement may follow
      have hmark (hne : value.stop.lexeme ≠ .endOfInput) : P value.stop.pos := by
        obtain ⟨rest, -, hsuffix⟩ := exists_of_stop hstop hleft heq hne
        exact (hbefore _ (hsuffix.subset List.mem_cons_self)).2
      have hnext (hne : value.stop.lexeme ≠ .endOfInput) {more : Statements}
          (hmore : more.Placed P) : PlacingSet P stop before
            (Parser.statements fuel depth opening more value.stop value.rest) := by
        obtain ⟨rest, hrest, hsuffix⟩ := exists_of_stop hstop hleft heq hne
        have hlength := hsuffix.length_le
        rw [List.length_cons] at hlength
        have hmarks : ∀ other ∈ rest, Marks P other := fun other hmem =>
          hbefore other (hsuffix.subset (List.mem_cons_of_mem _ hmem))
        obtain ⟨hset, hclose⟩ :=
          ih.statements hmarks hopening hmore (by omega) depth value.stop
        rw [hrest]
        exact ⟨hset.of_suffix ((List.suffix_cons ..).trans hsuffix), hclose⟩
      rw [ok_bind]
      split
      · exact placingSet_of_blames (blames_of hopening _)
      · next hlexeme => exact placingSet_of_blames (blames_of (hmark (by simp [hlexeme])) _)
      · next hlexeme =>
          split
          · exact placingSet_of_blames (blames_of (hmark (by simp [hlexeme])) _)
          · exact hnext (by simp [hlexeme]) ⟨htree, hdone.entries⟩
      · next hlexeme => exact hnext (by simp [hlexeme]) (hdone.close hnone htree)
      · next hlexeme =>
          have hentries := (hdone.close hnone htree).entries
          refine ⟨⟨⟨hopening, Expr.allEntries_iff.mpr hentries⟩, left, hleft, heq⟩, ?_⟩
          rintro group ⟨⟩
          exact hlexeme
      · next hend _ _ _ _ => exact hnext hend hdone

end Places

theorem places (hnone : P .none) {stop : Token} (hstop : stop.lexeme = .endOfInput)
    (fuel : Nat) : Places P stop fuel := by
  induction fuel with
  | zero => exact ⟨fun _ _ hfuel => by omega, fun _ _ _ hfuel => by omega⟩
  | succ fuel ih =>
      refine ⟨fun hbefore hchain hfuel depth last => ?_,
        fun hbefore hopening hdone hfuel depth last => ?_⟩
      · exact ih.operands_succ hnone hstop hbefore hchain hfuel last
      · exact ih.statements_succ hnone hstop hbefore hopening hdone hfuel last

end Parser

/-! ## Whole texts -/

namespace Expr

open BitLang.Parser

variable {tokens : List Token} {stop : Token}

theorem places_ofTokens (hnone : P .none) (htokens : ∀ token ∈ tokens, Marks P token)
    (hstop : stop.lexeme = .endOfInput) :
    (∀ e, ofTokens (tokens ++ [stop]) = .ok e → e.Placed P) ∧
      ∀ error, ofTokens (tokens ++ [stop]) = .error error → Blames P stop.pos error := by
  obtain ⟨first, hfirst⟩ := ofTokens_append_end tokens stop
  have hread := (places hnone hstop (2 * (tokens ++ [stop]).length + 1)).operands htokens
    (placed_absent hnone) (by simp) 0 first
  rw [hfirst]
  generalize Parser.operands _ 0 .absent first (tokens ++ [stop]) = result at hread
  cases result with
  | error error =>
      refine ⟨nofun, ?_⟩
      rintro _ ⟨⟩
      exact hread
  | ok group =>
      obtain ⟨htree, left, hleft, heq⟩ := hread
      rw [ok_bind]
      split
      · refine ⟨?_, nofun⟩
        rintro _ ⟨⟩
        exact htree
      · next hend =>
          obtain ⟨rest, -, hsuffix⟩ := exists_of_stop hstop hleft heq hend
          refine ⟨nofun, ?_⟩
          rintro _ ⟨⟩
          exact blames_of (htokens _ (hsuffix.subset List.mem_cons_self)).2 _

/-- The nodes of a tree that was read from a text stand at its tokens.  So does the error if it
was not, or it says at the end of the text that something nests too deeply. -/
theorem places_parse (hnone : P .none) {source : Bytes}
    (hscan : Token.scan source = tokens ++ [stop]) (htokens : ∀ token ∈ tokens, Marks P token)
    (hstop : stop.lexeme = .endOfInput) :
    (∀ e, parse source = .ok e → e.Placed P) ∧
      ∀ error, parse source = .error error → Blames P stop.pos error := by
  rw [parse, Token.tokenize, hscan]
  cases hfault : Token.firstFault? (tokens ++ [stop]) with
  | none => exact places_ofTokens hnone htokens hstop
  | some token =>
      have hlexeme : token.lexeme = .fault := by simpa using List.find?_some hfault
      have hmem : token ∈ tokens := by
        rcases List.mem_append.mp (List.mem_of_find?_eq_some hfault) with h | h
        · exact h
        · rw [List.mem_singleton.mp h, hstop] at hlexeme
          cases hlexeme
      refine ⟨nofun, ?_⟩
      rintro _ ⟨⟩
      exact blames_of (htokens token hmem).2 _

end Expr

end BitLang
