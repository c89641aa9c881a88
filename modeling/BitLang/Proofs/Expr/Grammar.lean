/-
# The grammar of expressions

The reader accepts the token lists of a context-free grammar,

    Group     ::= Operand* [':' Group]
    Operand   ::= literal | '$' | '(' Group ')' | '{' Statement (';' Statement)* '}'
    Statement ::= (Group '=')* Group

with two conditions on its derivations: a group before an equals sign denotes something,
and no more than `maxNesting` parentheses, sets and function bodies are open at once.
A derivation tells the tree that is read: the reader accepts exactly what can be derived
and gives back the tree of the derivation.

Derivations are trees of their own here, and everything the grammar says about them is
computed from them: the lexemes they spell, the tree they denote, and how deep they nest.
-/

import BitLang.Proofs.Expr.Steps
import Mathlib.Data.List.Basic

namespace BitLang

/-! ## Derivations -/

namespace Grammar

mutual

/-- A group, read from left to right: it is over, or an operand comes before the rest of
it, or a colon turns all that follows into the body of a function. -/
inductive Group where
  | done
  | operand (first : Operand) (rest : Group)
  | function (body : Group)

/-- An operand of a group. -/
inductive Operand where
  | literal (bits : BitSeq)
  | scope
  | paren (group : Group)
  | set (statements : Statements)

/-- The statements of a set, one or more. -/
inductive Statements where
  | last (statement : Statement)
  | more (statement : Statement) (rest : Statements)

/-- A statement: a value, behind any number of keys. -/
inductive Statement where
  | value (group : Group)
  | keyed (key : Group) (rest : Statement)

end

mutual

/-- The lexemes of a group. -/
def Group.lexemes : Group → List Lexeme
  | .done => []
  | .operand first rest => first.lexemes ++ rest.lexemes
  | .function body => .colon :: body.lexemes

/-- The lexemes of an operand. -/
def Operand.lexemes : Operand → List Lexeme
  | .literal bits => [.literal bits]
  | .scope => [.scope]
  | .paren group => .openParen :: (group.lexemes ++ [.closeParen])
  | .set statements => .openBrace :: (statements.lexemes ++ [.closeBrace])

/-- The lexemes of the statements of a set, without its braces. -/
def Statements.lexemes : Statements → List Lexeme
  | .last statement => statement.lexemes
  | .more statement rest => statement.lexemes ++ .semicolon :: rest.lexemes

/-- The lexemes of a statement. -/
def Statement.lexemes : Statement → List Lexeme
  | .value group => group.lexemes
  | .keyed key rest => key.lexemes ++ .equals :: rest.lexemes

end

mutual

/-- How many parentheses, sets and function bodies are open at the deepest point. -/
def Group.nesting : Group → Nat
  | .done => 0
  | .operand first rest => max first.nesting rest.nesting
  | .function body => body.nesting + 1

/-- How many parentheses, sets and function bodies are open at the deepest point. -/
def Operand.nesting : Operand → Nat
  | .literal _ => 0
  | .scope => 0
  | .paren group => group.nesting + 1
  | .set statements => statements.nesting + 1

/-- How many parentheses, sets and function bodies are open at the deepest point. -/
def Statements.nesting : Statements → Nat
  | .last statement => statement.nesting
  | .more statement rest => max statement.nesting rest.nesting

/-- How many parentheses, sets and function bodies are open at the deepest point. -/
def Statement.nesting : Statement → Nat
  | .value group => group.nesting
  | .keyed key rest => max key.nesting rest.nesting

end

/-! ## The tree of a derivation -/

/-- Puts an operand after a chain; an absent chain gives way to it. -/
def join (chain next : Expr) : Expr :=
  match chain with
  | .absent => next
  | chain => .combine .none chain next

/-- Makes the last operand of a chain, or a chain that is no combination as a whole, the
pattern of a function, and puts the function after what remains. -/
def functionOnto (chain body : Expr) : Expr :=
  match chain with
  | .combine _ outer pattern => join outer (.function .none pattern body)
  | pattern => .function .none pattern body

/-- What a statement adds to a set: nothing without a value, else its last key and its
value.  A value without a key is keyed by how many there were before it. -/
def entriesOf (keyless : Nat) : Option Expr × Expr → List (Expr × Expr)
  | (_, .absent) => []
  | (some key, value) => [(key, value)]
  | (none, value) => [(.literal .none (.encode keyless), value)]

/-- Counts a value that has no key. -/
def countKeyless (keyless : Nat) : Option Expr × Expr → Nat
  | (_, .absent) => keyless
  | (some _, _) => keyless
  | (none, _) => keyless + 1

mutual

/-- The tree of a group whose operands go onto a chain. -/
def Group.treeOnto : Group → (chain : Expr) → Expr
  | .done, chain => chain
  | .operand first rest, chain => rest.treeOnto (join chain first.tree)
  | .function body, chain => functionOnto chain (body.treeOnto .absent)

/-- The tree of an operand.  Parentheses leave no trace. -/
def Operand.tree : Operand → Expr
  | .literal bits => .literal .none bits
  | .scope => .scope .none
  | .paren group => group.treeOnto .absent
  | .set statements => .set .none (statements.entries none 0)

/-- The entries of a set, where `key` has been read already and `keyless` values came
without one. -/
def Statements.entries : Statements → (key : Option Expr) → (keyless : Nat) → List (Expr × Expr)
  | .last statement, key, keyless => entriesOf keyless (statement.parts key)
  | .more statement rest, key, keyless =>
    entriesOf keyless (statement.parts key) ++
      rest.entries none (countKeyless keyless (statement.parts key))

/-- The last key of a statement, which is `key` if it has none of its own, and its
value. -/
def Statement.parts : Statement → (key : Option Expr) → Option Expr × Expr
  | .value group, key => (key, group.treeOnto .absent)
  | .keyed key rest, _ => rest.parts (some (key.treeOnto .absent))

end

/-- The tree of a whole group. -/
def Group.tree (group : Group) : Expr := group.treeOnto .absent

mutual

/-- Every group before an equals sign denotes something. -/
def Group.Keyed : Group → Prop
  | .done => True
  | .operand first rest => first.Keyed ∧ rest.Keyed
  | .function body => body.Keyed

/-- Every group before an equals sign denotes something. -/
def Operand.Keyed : Operand → Prop
  | .literal _ => True
  | .scope => True
  | .paren group => group.Keyed
  | .set statements => statements.Keyed

/-- Every group before an equals sign denotes something. -/
def Statements.Keyed : Statements → Prop
  | .last statement => statement.Keyed
  | .more statement rest => statement.Keyed ∧ rest.Keyed

/-- Every group before an equals sign denotes something. -/
def Statement.Keyed : Statement → Prop
  | .value group => group.Keyed
  | .keyed key rest => key.treeOnto .absent ≠ .absent ∧ key.Keyed ∧ rest.Keyed

end

/-- A derivation as the reader wants it: its keys denote something, and it does not nest
too deep. -/
structure Group.Admissible (group : Group) : Prop where
  keyed : group.Keyed
  nesting_le : group.nesting ≤ maxNesting

/-- One more key in front of the first statement. -/
def Statements.withKey (key : Group) : Statements → Statements
  | .last statement => .last (.keyed key statement)
  | .more statement rest => .more (.keyed key statement) rest

theorem Statements.lexemes_withKey (key : Group) (statements : Statements) :
    (statements.withKey key).lexemes = key.lexemes ++ .equals :: statements.lexemes := by
  cases statements <;> simp [withKey, lexemes, Statement.lexemes]

theorem Statements.nesting_withKey (key : Group) (statements : Statements) :
    (statements.withKey key).nesting = max key.nesting statements.nesting := by
  cases statements <;> simp [withKey, nesting, Statement.nesting, Nat.max_assoc]

theorem Statements.entries_withKey (key : Group) (statements : Statements) (before : Option Expr)
    (keyless : Nat) :
    (statements.withKey key).entries before keyless =
      statements.entries (some (key.treeOnto .absent)) keyless := by
  cases statements <;> rfl

theorem Statements.keyed_withKey {key : Group} {statements : Statements}
    (htree : key.treeOnto .absent ≠ .absent) (hkey : key.Keyed) (hstatements : statements.Keyed) :
    (statements.withKey key).Keyed := by
  cases statements with
  | last statement => exact ⟨htree, hkey, hstatements⟩
  | more statement rest => exact ⟨⟨htree, hkey, hstatements.1⟩, hstatements.2⟩

end Grammar

/-! ## Trees that are read, up to spans -/

namespace Expr

theorem eraseSpans_follow (chain next : Expr) (pos : Position) :
    (chain.follow next pos).eraseSpans = Grammar.join chain.eraseSpans next.eraseSpans := by
  cases chain <;> simp only [follow, eraseSpans, Grammar.join]

end Expr

namespace Parser

theorem eraseSpans_functionOf (chain : Expr) (colon : Token) (body : Group) :
    (functionOf chain colon body).eraseSpans =
      Grammar.functionOnto chain.eraseSpans body.tree.eraseSpans := by
  rw [functionOf, Expr.eraseSpans_follow]
  cases chain <;> simp only [Expr.splitLast, Expr.eraseSpans, Grammar.functionOnto, Grammar.join]

namespace Statements

/-- The key that waits for its value, if there is one. -/
def pending (done : Statements) : Option Expr :=
  if done.key.isAbsent then none else some done.key.eraseSpans

theorem pending_of_present {done : Statements} {key : Expr} (h : key.isAbsent = false) :
    { done with key := key }.pending = some key.eraseSpans := by
  rw [pending, if_neg (by simp [h])]

/-- No key is waiting after a statement. -/
theorem pending_close (done : Statements) (value : Expr) : (done.close value).pending = none := by
  unfold close
  split
  · rfl
  · split <;> rfl

theorem keyless_close (done : Statements) (value : Expr) :
    (done.close value).keyless =
      Grammar.countKeyless done.keyless (done.pending, value.eraseSpans) := by
  unfold close pending
  cases value <;> cases done.key <;> rfl

theorem entries_close (done : Statements) (value : Expr) :
    Expr.eraseEntries (done.close value).entries.toList =
      Expr.eraseEntries done.entries.toList ++
        Grammar.entriesOf done.keyless (done.pending, value.eraseSpans) := by
  have hpush (entries : List (Expr × Expr)) (key value : Expr) :
      Expr.eraseEntries (entries ++ [(key, value)]) =
        Expr.eraseEntries entries ++ [(key.eraseSpans, value.eraseSpans)] := by
    induction entries with
    | nil => rfl
    | cons entry rest ih => simp only [List.cons_append, Expr.eraseEntries, ih]
  unfold close pending
  cases value <;> cases done.key <;>
    simp [Expr.isAbsent, Grammar.entriesOf, Expr.eraseSpans, hpush, Span.none]

end Statements

end Parser

end BitLang
