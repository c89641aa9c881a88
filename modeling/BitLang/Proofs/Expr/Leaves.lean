/-
# Leaves

The leaves of a tree are its literals and scopes from left to right.  They are the literals and
scopes of the text, each once and in their order, but for those of keys that are left out: a key
whose statement has no value, and a key that another key of the same statement comes behind.

Which tokens are left out is read off the derivation (`Group.kept`).  A key that the reader makes
up for a value without one is no leaf.  That a key is left out is known only when its statement is
over, so the invariant of the reader speaks of the key that waits for its value as well
(`ReadsSet.leaves`).
-/

import BitLang.Proofs.Expr.Reading
import BitLang.Proofs.Expr.Unambiguous

namespace BitLang

/-- The leaf that a token stands for. -/
def Token.leaf? (token : Token) : Option Expr :=
  match token.lexeme with
  | .literal bits => some (.literal token.span bits)
  | .scope => some (.scope token.span)
  | _ => none

theorem Token.leaf?_literal {token : Token} {bits : BitSeq} (h : token.lexeme = .literal bits) :
    token.leaf? = some (.literal token.span bits) := by
  rw [leaf?, h]

theorem Token.leaf?_scope {token : Token} (h : token.lexeme = .scope) :
    token.leaf? = some (.scope token.span) := by
  rw [leaf?, h]

namespace Expr

mutual

/-- The leaves of a tree, from left to right. -/
inductive Leaves : Expr → List Expr → Prop
  | absent : Leaves .absent []
  | literal (span : Span) (bits : BitSeq) : Leaves (.literal span bits) [.literal span bits]
  | scope (span : Span) : Leaves (.scope span) [.scope span]
  | set {span : Span} {entries : List (Expr × Expr)} {keyless : Nat} {leaves : List Expr} :
      EntryLeaves 0 entries keyless leaves → Leaves (.set span entries) leaves
  | function {span : Span} {pattern body : Expr} {left right : List Expr} :
      Leaves pattern left → Leaves body right → Leaves (.function span pattern body) (left ++ right)
  | combine {span : Span} {first second : Expr} {left right : List Expr} :
      Leaves first left → Leaves second right → Leaves (.combine span first second) (left ++ right)

/-- The leaves of the entries of a set, behind `before` values that came without a key.  The key
that was made up for such a value is no leaf; `after` counts them to the end. -/
inductive EntryLeaves : (before : Nat) → List (Expr × Expr) → (after : Nat) → List Expr → Prop
  | nil (before : Nat) : EntryLeaves before [] before []
  | keyed {before after : Nat} {key value : Expr} {entries : List (Expr × Expr)}
      {left middle right : List Expr} :
      Leaves key left → Leaves value middle → EntryLeaves before entries after right →
      EntryLeaves before ((key, value) :: entries) after (left ++ middle ++ right)
  | keyless {before after : Nat} {key value : Expr} {entries : List (Expr × Expr)}
      {left right : List Expr} :
      key = .literal ⟨value.pos, value.pos⟩ (.encode before) →
      Leaves value left → EntryLeaves (before + 1) entries after right →
      EntryLeaves before ((key, value) :: entries) after (left ++ right)

end

theorem Leaves.eq_nil {leaves : List Expr} (h : Leaves .absent leaves) : leaves = [] := by
  cases h
  rfl

theorem Leaves.follow {chain next : Expr} {left right : List Expr} (hchain : chain.Leaves left)
    (hnext : next.Leaves right) (pos : Position) :
    (chain.follow next pos).Leaves (left ++ right) := by
  cases chain with
  | absent =>
      rw [hchain.eq_nil]
      exact hnext
  | _ => exact .combine hchain hnext

theorem Leaves.splitLast {chain : Expr} {leaves : List Expr} (h : chain.Leaves leaves) :
    ∃ left right, leaves = left ++ right ∧ chain.splitLast.1.Leaves left ∧
      chain.splitLast.2.Leaves right := by
  cases h with
  | combine hleft hright => exact ⟨_, _, rfl, hleft, hright⟩
  | absent => exact ⟨[], _, rfl, .absent, .absent⟩
  | literal => exact ⟨[], _, rfl, .absent, .literal ..⟩
  | scope => exact ⟨[], _, rfl, .absent, .scope _⟩
  | set h => exact ⟨[], _, rfl, .absent, .set h⟩
  | function hpattern hbody => exact ⟨[], _, rfl, .absent, .function hpattern hbody⟩

/-- Splitting a chain to make a function of its last operand keeps the order of the leaves. -/
theorem Leaves.functionOf {chain : Expr} {body : Parser.Group} {left right : List Expr}
    (hchain : chain.Leaves left) (hbody : body.tree.Leaves right) (colon : Token) :
    (Parser.functionOf chain colon body).Leaves (left ++ right) := by
  obtain ⟨front, back, rfl, hfront, hback⟩ := hchain.splitLast
  rw [List.append_assoc]
  exact hfront.follow (.function hback hbody) _

theorem EntryLeaves.append {before middle after : Nat} {entries more : List (Expr × Expr)}
    {left right : List Expr} (h : EntryLeaves before entries middle left)
    (hmore : EntryLeaves middle more after right) :
    EntryLeaves before (entries ++ more) after (left ++ right) := by
  induction entries generalizing before left with
  | nil =>
      cases h
      exact hmore
  | cons entry rest ih =>
      cases h with
      | keyed hkey hvalue hrest =>
          rw [List.append_assoc]
          exact .keyed hkey hvalue (ih hrest)
      | keyless hkey hvalue hrest =>
          rw [List.append_assoc]
          exact .keyless hkey hvalue (ih hrest)

end Expr

/-- A statement that is over adds the leaves of its value, behind those of its key if there is a
value to the key. -/
theorem Parser.Statements.leaves_close {done : Parser.Statements} {value : Expr}
    {leaves key behind : List Expr}
    (hdone : Expr.EntryLeaves 0 done.entries.toList done.keyless leaves)
    (hkey : done.key.Leaves key) (hvalue : value.Leaves behind) :
    Expr.EntryLeaves 0 (done.close value).entries.toList (done.close value).keyless
      (leaves ++ ((if value.isAbsent then [] else key) ++ behind)) := by
  rw [close]
  split
  · next habsent =>
      rw [Expr.isAbsent_iff] at habsent
      subst habsent
      rw [hvalue.eq_nil]
      simpa using hdone
  · split
    · next hnone =>
        rw [Expr.isAbsent_iff] at hnone
        rw [hnone] at hkey
        rw [hkey.eq_nil, Array.toList_push, List.nil_append]
        have hentry := Expr.EntryLeaves.keyless rfl hvalue (.nil (done.keyless + 1))
        rw [List.append_nil] at hentry
        exact hdone.append hentry
    · rw [Array.toList_push]
      have hentry := Expr.EntryLeaves.keyed hkey hvalue (.nil done.keyless)
      rw [List.append_nil] at hentry
      exact hdone.append hentry

/-- No key is waiting after a statement. -/
theorem Parser.Statements.leaves_key_close (done : Parser.Statements) (value : Expr) :
    (done.close value).key.Leaves [] := by
  rw [close]
  split
  · exact .absent
  · split <;> exact .absent

namespace Grammar

/-! ## What is left out -/

/-- The statement has a value, and no key of its own. -/
def Statement.takesKey : Statement → Bool
  | .value group => !(group.treeOnto .absent).isAbsent
  | .keyed _ _ => false

/-- The first statement has a value, and no key of its own. -/
def Statements.takesKey : Statements → Bool
  | .last statement => statement.takesKey
  | .more statement _ => statement.takesKey

mutual

/-- Tells which lexemes of a group become part of its tree. -/
def Group.kept : Group → List Bool
  | .done => []
  | .operand first rest => first.kept ++ rest.kept
  | .function body => true :: body.kept

/-- Tells which lexemes of an operand become part of its tree. -/
def Operand.kept : Operand → List Bool
  | .literal _ => [true]
  | .scope => [true]
  | .paren group => true :: (group.kept ++ [true])
  | .set statements => true :: (statements.kept ++ [true])

/-- Tells which lexemes of a set become part of its tree. -/
def Statements.kept : Statements → List Bool
  | .last statement => statement.kept
  | .more statement rest => statement.kept ++ true :: rest.kept

/-- Tells which lexemes of a statement become part of its tree.  A key does not if there is no
value, or another key, behind it. -/
def Statement.kept : Statement → List Bool
  | .value group => group.kept
  | .keyed key rest =>
    (if rest.takesKey then key.kept else List.replicate key.kept.length false) ++ true :: rest.kept

end

theorem Statements.takesKey_withKey (key : Group) (statements : Statements) :
    (statements.withKey key).takesKey = false := by
  cases statements <;> rfl

theorem Statements.kept_withKey (key : Group) (statements : Statements) :
    (statements.withKey key).kept =
      (if statements.takesKey then key.kept else List.replicate key.kept.length false) ++
        true :: statements.kept := by
  cases statements with
  | last statement => rfl
  | more statement rest =>
      simp only [withKey, kept, Statement.kept, takesKey, List.append_assoc, List.cons_append]
      rfl

mutual

theorem Group.length_kept : (group : Group) → group.kept.length = group.lexemes.length
  | .done => rfl
  | .operand first rest => by
    simp [Group.kept, Group.lexemes, first.length_kept, rest.length_kept]
  | .function body => by simp [Group.kept, Group.lexemes, body.length_kept]

theorem Operand.length_kept : (operand : Operand) → operand.kept.length = operand.lexemes.length
  | .literal bits => rfl
  | .scope => rfl
  | .paren group => by simp [Operand.kept, Operand.lexemes, group.length_kept]
  | .set statements => by simp [Operand.kept, Operand.lexemes, statements.length_kept]

theorem Statements.length_kept :
    (statements : Statements) → statements.kept.length = statements.lexemes.length
  | .last statement => statement.length_kept
  | .more statement rest => by
    simp [Statements.kept, Statements.lexemes, statement.length_kept, rest.length_kept]

theorem Statement.length_kept :
    (statement : Statement) → statement.kept.length = statement.lexemes.length
  | .value group => group.length_kept
  | .keyed key rest => by
    by_cases h : rest.takesKey <;>
      simp [Statement.kept, Statement.lexemes, key.length_kept, rest.length_kept, h]

end

end Grammar

/-! ## The leaves of tokens -/

/-- The leaves of the tokens that are kept. -/
def Token.leavesKept (kept : List Bool) (tokens : List Token) : List Expr :=
  (tokens.zip kept).filterMap fun (token, keep) => if keep then token.leaf? else none

namespace Token

variable {kept more : List Bool} {tokens behind : List Token}

theorem leavesKept_append (h : tokens.length = kept.length) :
    leavesKept (kept ++ more) (tokens ++ behind) =
      leavesKept kept tokens ++ leavesKept more behind := by
  rw [leavesKept, List.zip_append h, List.filterMap_append]
  rfl

/-- A mark is no leaf. -/
theorem leavesKept_cons_mark {token : Token} (h : token.leaf? = none) (keep : Bool) :
    leavesKept (keep :: kept) (token :: tokens) = leavesKept kept tokens := by
  rw [leavesKept, List.zip_cons_cons, List.filterMap_cons_none (by cases keep <;> simp [h])]
  rfl

theorem leavesKept_singleton {token : Token} {leaf : Expr} (h : token.leaf? = some leaf) :
    leavesKept [true] [token] = [leaf] := by
  simp [leavesKept, h]

theorem leavesKept_between {token : Token} (h : token.leaf? = none)
    (hlength : tokens.length = kept.length) (keep : Bool) :
    leavesKept (kept ++ keep :: more) (tokens ++ token :: behind) =
      leavesKept kept tokens ++ leavesKept more behind := by
  rw [leavesKept_append hlength, leavesKept_cons_mark h]

/-- The leaves between two marks are those of what is between them. -/
theorem leavesKept_bracketed {opening close : Token} (hopening : opening.leaf? = none)
    (hclose : close.leaf? = none) (h : tokens.length = kept.length) :
    leavesKept (true :: (kept ++ [true])) (opening :: (tokens ++ [close])) =
      leavesKept kept tokens := by
  rw [leavesKept_cons_mark hopening, leavesKept_between hclose h]
  exact List.append_nil _

theorem leavesKept_replicate_false (count : Nat) (tokens : List Token) :
    leavesKept (List.replicate count false) tokens = [] := by
  rw [leavesKept, List.filterMap_eq_nil_iff]
  rintro ⟨token, keep⟩ hmem
  obtain rfl := List.eq_of_mem_replicate (List.of_mem_zip hmem).2
  rfl

/-- If nothing is left out, the leaves are those of all tokens. -/
theorem leavesKept_of_forall (hlength : tokens.length = kept.length)
    (h : ∀ keep ∈ kept, keep = true) : leavesKept kept tokens = tokens.filterMap leaf? := by
  have hall : ∀ pair ∈ tokens.zip kept,
      (if pair.2 then pair.1.leaf? else none) = (leaf? ∘ Prod.fst) pair := by
    rintro ⟨token, keep⟩ hmem
    rw [if_pos (h keep (List.of_mem_zip hmem).2)]
    rfl
  rw [leavesKept, List.filterMap_congr hall, ← List.filterMap_map,
    List.map_fst_zip (Nat.le_of_eq hlength)]

end Token

/-! ## Readings and their leaves -/

namespace Parser

open Grammar (Operand)
open Token (leavesKept)

/-- The leaves of what was read of a group come behind those of the chain that it was read onto. -/
def GroupLeaves (chain : Expr) (group : Group) (kept : List Bool) (read : List Token) : Prop :=
  ∀ leaves, chain.Leaves leaves → group.tree.Leaves (leaves ++ leavesKept kept read)

/-- The leaves of what was read of a set come behind those of the statements before, and behind
those of the key that was waiting if the first statement takes it. -/
def SetLeaves (done : Statements) (group : Group) (statements : Grammar.Statements)
    (read : List Token) : Prop :=
  ∀ leaves key, Expr.EntryLeaves 0 done.entries.toList done.keyless leaves →
    done.key.Leaves key →
    group.tree.Leaves
      (leaves ++ ((if statements.takesKey then key else []) ++ leavesKept statements.kept read))

section Steps

variable {depth : Nat} {chain : Expr} {done : Statements} {token : Token}
  {tokens read rest : List Token} {group value : Group} {derivation : Grammar.Group}
  {statements : Grammar.Statements}

theorem DerivedGroup.length_read
    (h : DerivedGroup depth chain tokens group derivation read) :
    read.length = derivation.kept.length := by
  rw [derivation.length_kept, ← h.lexemes_eq, List.length_map]

theorem DerivedSet.length_read (h : DerivedSet depth done tokens group statements read) :
    read.length = statements.kept.length := by
  rw [statements.length_kept, ← h.lexemes_eq, List.length_map]

/-- An operand comes onto the chain with its leaves. -/
theorem GroupLeaves.operand {next : Expr} {pos : Position} {front : List Token} {operand : Operand}
    (h : GroupLeaves (chain.follow next pos) group derivation.kept read)
    (hlength : front.length = operand.kept.length)
    (hnext : next.Leaves (leavesKept operand.kept front)) :
    GroupLeaves chain group (Grammar.Group.operand operand derivation).kept (front ++ read) := by
  intro leaves hchain
  rw [Grammar.Group.kept, Token.leavesKept_append hlength, ← List.append_assoc]
  exact h _ (hchain.follow hnext pos)

theorem GroupLeaves.function (h : GroupLeaves .absent group derivation.kept read)
    (htoken : token.lexeme = .colon) :
    GroupLeaves chain ⟨functionOf chain token group, group.stop, group.rest⟩
      (Grammar.Group.function derivation).kept (token :: read) := by
  intro leaves hchain
  rw [Grammar.Group.kept, Token.leavesKept_cons_mark (by simp [Token.leaf?, htoken])]
  exact hchain.functionOf (h [] .absent) token

/-- A value is over with its statement, and with it the key that was waiting. -/
theorem GroupLeaves.close {leaves key : List Expr}
    (h : GroupLeaves .absent value derivation.kept read)
    (hderived : DerivedGroup depth .absent tokens value derivation read)
    (hdone : Expr.EntryLeaves 0 done.entries.toList done.keyless leaves)
    (hkey : done.key.Leaves key) :
    Expr.EntryLeaves 0 (done.close value.tree).entries.toList (done.close value.tree).keyless
      (leaves ++ ((if (Grammar.Statement.value derivation).takesKey then key else []) ++
        leavesKept derivation.kept read)) := by
  have hclose := Statements.leaves_close hdone hkey (h [] .absent)
  have habsent : value.tree.isAbsent = (derivation.treeOnto .absent).isAbsent := by
    rw [← Expr.isAbsent_eraseSpans, hderived.tree_eq]
    rfl
  rw [habsent] at hclose
  rw [Grammar.Statement.takesKey]
  cases hvalue : (derivation.treeOnto .absent).isAbsent <;> simpa [hvalue] using hclose

/-- A key waits for the statement behind it. -/
theorem GroupLeaves.key {more : List Token} (h : GroupLeaves .absent value derivation.kept read)
    (hlength : read.length = derivation.kept.length) (hstop : value.stop.lexeme = .equals)
    (hmore : SetLeaves { done with key := value.tree } group statements more) :
    SetLeaves done group (statements.withKey derivation) (read ++ value.stop :: more) := by
  intro leaves key hdone _
  have hmark : value.stop.leaf? = none := by simp [Token.leaf?, hstop]
  have htree := hmore leaves _ hdone (h [] .absent)
  rw [Grammar.Statements.takesKey_withKey, Grammar.Statements.kept_withKey]
  cases htakes : statements.takesKey with
  | true =>
      simp only [htakes, ↓reduceIte] at htree ⊢
      rw [Token.leavesKept_between hmark hlength]
      simpa using htree
  | false =>
      simp only [htakes, Bool.false_eq_true, ↓reduceIte] at htree ⊢
      rw [Token.leavesKept_between hmark (by simpa using hlength),
        Token.leavesKept_replicate_false]
      simpa using htree

/-- A value is over with its statement, and others come behind. -/
theorem GroupLeaves.nextValue {more : List Token}
    (h : GroupLeaves .absent value derivation.kept read)
    (hderived : DerivedGroup depth .absent tokens value derivation read)
    (hstop : value.stop.lexeme = .semicolon)
    (hmore : SetLeaves (done.close value.tree) group statements more) :
    SetLeaves done group (.more (.value derivation) statements) (read ++ value.stop :: more) := by
  intro leaves key hdone hkey
  have hmark : value.stop.leaf? = none := by simp [Token.leaf?, hstop]
  have htree := hmore _ [] (h.close hderived hdone hkey) (done.leaves_key_close _)
  rw [Grammar.Statements.kept, Grammar.Statement.kept, Grammar.Statements.takesKey,
    Token.leavesKept_between hmark hderived.length_read]
  simpa using htree

end Steps

mutual

/-- What is read of a group has a derivation that tells its leaves. -/
theorem ReadsGroup.leaves {depth : Nat} {chain : Expr} {tokens : List Token} {group : Group} :
    ReadsGroup depth chain tokens group → depth ≤ maxNesting → HasEnd tokens →
    ∃ derivation read, DerivedGroup depth chain tokens group derivation read ∧
      GroupLeaves chain group derivation.kept read
  | .stop hends, hdepth, hend => by
    refine ⟨.done, [], derivedGroup_done hdepth hends hend, fun leaves hchain => ?_⟩
    simpa [Grammar.Group.kept, leavesKept] using hchain
  | .literal htoken hread, hdepth, hend => by
    obtain ⟨derivation, read, hderived, hleaves⟩ :=
      hread.leaves hdepth (hend.of_cons (by simp [htoken]))
    refine ⟨_, _, hderived.operand (.literal _) [_] (by simp [htoken, Operand.lexemes]) trivial
      hdepth rfl, hleaves.operand rfl ?_⟩
    rw [Operand.kept, Token.leavesKept_singleton (Token.leaf?_literal htoken)]
    exact .literal _ _
  | .scope htoken hread, hdepth, hend => by
    obtain ⟨derivation, read, hderived, hleaves⟩ :=
      hread.leaves hdepth (hend.of_cons (by simp [htoken]))
    refine ⟨_, _, hderived.operand .scope [_] (by simp [htoken, Operand.lexemes]) trivial
      hdepth rfl, hleaves.operand rfl ?_⟩
    rw [Operand.kept, Token.leavesKept_singleton (Token.leaf?_scope htoken)]
    exact .scope _
  | .paren htoken hdeeper hinner hstop hread, hdepth, hend => by
    obtain ⟨derivation, read, hderived, hinside⟩ :=
      hinner.leaves hdeeper (hend.of_cons (by simp [htoken]))
    obtain ⟨derivation', read', hderived', hleaves⟩ :=
      hread.leaves hdepth (hderived.hasEnd (by simp [hstop]))
    refine ⟨_, _, hderived.paren htoken hstop hderived',
      hleaves.operand (by simp [Operand.kept, hderived.length_read]) ?_⟩
    rw [Operand.kept, Token.leavesKept_bracketed (by simp [Token.leaf?, htoken])
      (by simp [Token.leaf?, hstop]) hderived.length_read]
    exact hinside [] .absent
  | .set htoken hdeeper hinner hread, hdepth, hend => by
    obtain ⟨statements, read, hderived, hinside⟩ :=
      hinner.leaves hdeeper (hend.of_cons (by simp [htoken]))
    obtain ⟨derivation', read', hderived', hleaves⟩ := hread.leaves hdepth hderived.hasEnd
    refine ⟨_, _, hderived.operand htoken hderived',
      hleaves.operand (by simp [Operand.kept, hderived.length_read]) ?_⟩
    rw [Operand.kept, Token.leavesKept_bracketed (by simp [Token.leaf?, htoken])
      (by simp [Token.leaf?, hderived.stop_eq]) hderived.length_read]
    simpa using hinside [] [] (.nil 0) .absent
  | .function htoken hdeeper hbody, hdepth, hend => by
    obtain ⟨derivation, read, hderived, hleaves⟩ :=
      hbody.leaves hdeeper (hend.of_cons (by simp [htoken]))
    exact ⟨_, _, hderived.function htoken, hleaves.function htoken⟩

/-- What is read of a set has a derivation that tells its leaves. -/
theorem ReadsSet.leaves {depth : Nat} {opening : Token} {done : Statements}
    {tokens : List Token} {group : Group} :
    ReadsSet depth opening done tokens group → depth ≤ maxNesting → HasEnd tokens →
    ∃ statements read, DerivedSet depth done tokens group statements read ∧
      SetLeaves done group statements read
  | .key hvalue hstop hpresent hread, hdepth, hend => by
    obtain ⟨derivation, read, hderived, hkey⟩ := hvalue.leaves hdepth hend
    obtain ⟨statements, more, hmore, hleaves⟩ :=
      hread.leaves hdepth (hderived.hasEnd (by simp [hstop]))
    exact ⟨_, _, hderived.key hstop hpresent hmore, hkey.key hderived.length_read hstop hleaves⟩
  | .next hvalue hstop hread, hdepth, hend => by
    obtain ⟨derivation, read, hderived, hvalueLeaves⟩ := hvalue.leaves hdepth hend
    obtain ⟨statements, more, hmore, hleaves⟩ :=
      hread.leaves hdepth (hderived.hasEnd (by simp [hstop]))
    exact ⟨_, _, hderived.nextValue hstop hmore, hvalueLeaves.nextValue hderived hstop hleaves⟩
  | .last hvalue hstop, hdepth, hend => by
    obtain ⟨derivation, read, hderived, hleaves⟩ := hvalue.leaves hdepth hend
    exact ⟨_, _, hderived.lastValue hstop _,
      fun leaves key hdone hkey => .set (hleaves.close hderived hdone hkey)⟩

end

end Parser

namespace Expr

open Token (leavesKept)

/-- The leaves of a tree that was read are the literals and the scopes of the text before the first
end of the input, in their order, but for those of the keys that the derivation of the text leaves
out. -/
theorem exists_leaves_of_ofTokens {tokens rest : List Token} {stop : Token}
    (htokens : ∀ token ∈ tokens, token.lexeme ≠ .endOfInput) (hstop : stop.lexeme = .endOfInput)
    {e : Expr} (h : ofTokens (tokens ++ stop :: rest) = .ok e) :
    (∃ derivation : Grammar.Group, derivation.lexemes = tokens.map Token.lexeme) ∧
    ∀ derivation : Grammar.Group, derivation.lexemes = tokens.map Token.lexeme →
      e.Leaves (leavesKept derivation.kept tokens) ∧
      ((∀ keep ∈ derivation.kept, keep = true) → e.Leaves (tokens.filterMap Token.leaf?)) := by
  have hend : Parser.HasEnd (tokens ++ stop :: rest) := ⟨stop, by simp, hstop⟩
  obtain ⟨found, behind, hfound, hread⟩ := exists_readsGroup_of_ofTokens hend h
  obtain ⟨derivation, read, hderived, hleaves⟩ := hread.leaves (Nat.zero_le _) hend
  obtain rfl := Parser.eq_of_derived htokens hstop hfound hderived
  have htree := hleaves [] .absent
  rw [List.nil_append] at htree
  refine ⟨⟨derivation, hderived.lexemes_eq.symm⟩, fun other hother => ?_⟩
  obtain rfl : other = derivation :=
    Grammar.Group.lexemes_inj.mp (hother.trans hderived.lexemes_eq)
  refine ⟨htree, fun hall => ?_⟩
  rw [← Token.leavesKept_of_forall hderived.length_read hall]
  exact htree

/-- Two statements: a key without a value, and a key with one. -/
def unvaluedKey : Grammar.Group :=
  .operand
    (.set (.more (.keyed (.operand (.literal (.encode 5)) .done) (.value .done))
      (.last (.keyed (.operand (.literal (.encode 6)) .done) (.value (.operand .scope .done))))))
    .done

/-- The key without a value is left out. -/
theorem leaves_unvaluedKey :
    ∃ e, ofTokens (unvaluedKey.lexemes.map Token.bare ++ [Token.bare .endOfInput]) = .ok e ∧
      e.Leaves [.literal .none (.encode 6), .scope .none] := by
  have htokens : ∀ token ∈ unvaluedKey.lexemes.map Token.bare, token.lexeme ≠ .endOfInput := by
    decide
  have hstop : (Token.bare .endOfInput).lexeme = .endOfInput := rfl
  obtain ⟨e, he⟩ : ∃ e, ofTokens (unvaluedKey.lexemes.map Token.bare ++
      Token.bare .endOfInput :: []) = .ok e := ⟨_, rfl⟩
  obtain ⟨-, hleaves⟩ := exists_leaves_of_ofTokens htokens hstop he
  exact ⟨e, he, (hleaves unvaluedKey rfl).1⟩

/-- One statement with a key, another key and a value. -/
def rekeyed : List Token :=
  [.openBrace, .literal (.encode 5), .equals, .literal (.encode 6), .equals, .literal (.encode 7),
    .closeBrace].map Token.bare

/-- The first of two keys is left out, although its statement has a value. -/
theorem not_leaves_rekeyed :
    ∃ e, ofTokens (rekeyed ++ [Token.bare .endOfInput]) = .ok e ∧
      e = .set .none [(.literal .none (.encode 6), .literal .none (.encode 7))] ∧
      ¬e.Leaves (rekeyed.filterMap Token.leaf?) := by
  refine ⟨_, rfl, rfl, fun h => ?_⟩
  have hlength : ∀ leaves, Leaves
      (.set .none [(.literal .none (.encode 6), .literal .none (.encode 7))]) leaves →
      leaves.length ≤ 2 := by
    rintro leaves (_ | _ | _ | h)
    cases h with
    | keyed hkey hvalue hrest =>
        cases hkey
        cases hvalue
        cases hrest
        exact Nat.le_refl 2
    | keyless hkey hvalue hrest =>
        cases hvalue
        cases hrest
        exact Nat.le_succ 1
  exact absurd (hlength _ h) (by decide)

end Expr

end BitLang
