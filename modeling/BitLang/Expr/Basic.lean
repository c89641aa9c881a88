/-
# Expression trees

An expression is a literal, the scope, a set, a function or two operands side by
side.  An operand may be absent; it denotes the null value and stands nowhere in
the text.  Every other node carries the stretch of source it was read from,
which plays no part in its meaning.
-/

import BitLang.BitSeq.Basic
import BitLang.Position

namespace BitLang

/-- An expression tree. -/
inductive Expr where
  | absent
  | literal (span : Span) (bits : BitSeq)
  | scope (span : Span)
  | set (span : Span) (entries : List (Expr × Expr))
  | function (span : Span) (pattern body : Expr)
  | combine (span : Span) (left right : Expr)
deriving Repr, Inhabited

namespace Expr

/-- The stretch of source of a node that stands in the text. -/
def span? : Expr → Option Span
  | absent => none
  | literal span _ => some span
  | scope span => some span
  | set span _ => some span
  | function span _ _ => some span
  | combine span _ _ => some span

/-- The stretch of source, or the empty stretch at `pos` for an absent operand. -/
def spanOr (e : Expr) (pos : Position) : Span := e.span?.getD ⟨pos, pos⟩

/-- Where the expression starts; nowhere if it is absent. -/
def pos (e : Expr) : Position := (e.spanOr .none).start

/-- The operand is absent. -/
def isAbsent : Expr → Bool
  | absent => true
  | _ => false

/-- Puts the operand `next` after `chain`.  An absent chain gives way to the
operand; `pos` is where an absent operand would stand. -/
def follow (chain next : Expr) (pos : Position) : Expr :=
  match chain with
  | absent => next
  | chain => combine ⟨chain.pos, (next.spanOr pos).stop⟩ chain next

/-- Takes the last operand off a chain: what remains, and that operand. -/
def splitLast : Expr → Expr × Expr
  | combine _ left right => (left, right)
  | single => (absent, single)

/-- Takes a chain of operands apart: its first operand, and the others in order,
each with the stretch of source of the chain up to it. -/
def spine : Expr → List (Span × Expr) → Expr × List (Span × Expr)
  | combine span left right, others => left.spine ((span, right) :: others)
  | head, others => (head, others)

end Expr

end BitLang
