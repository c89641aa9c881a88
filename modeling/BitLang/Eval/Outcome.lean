/-
# Outcomes of evaluation

An evaluation counts the calls it makes and the deepest level it reaches.  It ends
with a value or with an error, and both come with the count so far; or it runs out
of the fuel that bounds its recursion.
-/

import BitLang.Value.Basic

namespace BitLang

/-- The classes of errors an evaluation ends with. -/
inductive EvalError.Class where
  | unsupportedCombination
  | keyType
  | sliceBounds
  | resourceExhausted
deriving DecidableEq, Repr

/-- The class in words. -/
def EvalError.Class.describe : Class → String
  | unsupportedCombination => "unsupported combination"
  | keyType => "key is not a bit sequence"
  | sliceBounds => "slice bounds out of range"
  | resourceExhausted => "recursion depth exceeded"

/-- Why an evaluation failed. -/
inductive EvalError.Cause where
  | noRule (left right : Kind)
  | keyNotBits (kind : Kind)
  | patternNotBits (kind : Kind)
  | missingBound (bound : Nat)
  | boundNotBits (bound : Nat) (kind : Kind)
  | outOfRange (start stop len : Nat)
  | tooDeep (limit : Int)
deriving DecidableEq, Repr

/-- A cause and the position of the expression it is attributed to. -/
structure EvalError where
  pos : Position
  cause : EvalError.Cause
deriving DecidableEq, Repr

namespace EvalError

/-- The class a cause belongs to. -/
def Cause.class : Cause → Class
  | noRule _ _ => .unsupportedCombination
  | keyNotBits _ | patternNotBits _ => .keyType
  | missingBound _ | boundNotBits _ _ | outOfRange _ _ _ => .sliceBounds
  | tooDeep _ => .resourceExhausted

/-- What exactly went wrong. -/
def Cause.detail : Cause → String
  | noRule left right => left.name ++ " with " ++ right.name
  | keyNotBits kind => "set key is " ++ kind.name
  | patternNotBits kind => "function pattern is " ++ kind.name
  | missingBound bound => "missing bound " ++ toString bound
  | boundNotBits bound kind => "bound " ++ toString bound ++ " is " ++ kind.name
  | outOfRange start stop len =>
    "[" ++ toString start ++ ":" ++ toString stop ++ "] of " ++ toString len ++ " bits"
  | tooDeep limit => "limit is " ++ toString limit

/-- The error in words, without its position. -/
def describe (e : EvalError) : String := e.cause.class.describe ++ ": " ++ e.cause.detail

/-- The error as it is reported; a position without a line is left out. -/
def message (e : EvalError) : String :=
  if e.pos.line = 0 then e.describe
  else "line " ++ toString e.pos.line ++ ":" ++ toString e.pos.column ++ ": " ++ e.describe

end EvalError

/-- The work an evaluation has done: the functions called and the deepest level. -/
structure Tally where
  calls : Nat
  deepest : Nat
deriving DecidableEq, Repr, Inhabited

/-- How an evaluation ends. -/
inductive Outcome (α : Type) where
  | value (result : α) (tally : Tally)
  | failure (error : EvalError) (tally : Tally)
  | outOfFuel

namespace Outcome

variable {α : Type}

/-- The result or the error, if the evaluation ended with either. -/
def result? : Outcome α → Option (Except EvalError α)
  | value result _ => some (.ok result)
  | failure error _ => some (.error error)
  | outOfFuel => none

/-- The work done, if the evaluation ended. -/
def tally? : Outcome α → Option Tally
  | value _ tally => some tally
  | failure _ tally => some tally
  | outOfFuel => none

end Outcome

/-- An evaluation under way: given the work done before, it comes to an outcome. -/
def Eval (α : Type) := Tally → Outcome α

namespace Eval

variable {α β : Type}

/-- The outcome of an evaluation, given the work done before. -/
@[inline] def run (x : Eval α) (tally : Tally) : Outcome α := x tally

/-- Ends with a value and no further work. -/
@[inline] def pure (a : α) : Eval α := fun tally => .value a tally

/-- Goes on with the value of the first evaluation; an error ends both. -/
@[inline] def bind (x : Eval α) (f : α → Eval β) : Eval β := fun tally =>
  match x.run tally with
  | .value a tally => (f a).run tally
  | .failure error tally => .failure error tally
  | .outOfFuel => .outOfFuel

instance : Monad Eval where
  pure := Eval.pure
  bind := Eval.bind

/-- Ends with an error. -/
def fail (pos : Position) (cause : EvalError.Cause) : Eval α := fun tally =>
  .failure ⟨pos, cause⟩ tally

/-- Ends without an answer. -/
def exhausted : Eval α := fun _ => .outOfFuel

/-- Enters a level, which must not lie below the limit. -/
def enter (limit : Int) (depth : Nat) (pos : Position) : Eval Unit := fun tally =>
  if limit < depth then .failure ⟨pos, .tooDeep limit⟩ tally
  else .value () { tally with deepest := max tally.deepest depth }

/-- Counts a call made at a level; its body, one level further down, must not lie
below the limit. -/
def call (limit : Int) (depth : Nat) (pos : Position) : Eval Unit := fun tally =>
  if limit ≤ depth then .failure ⟨pos, .tooDeep limit⟩ tally
  else .value () { tally with calls := tally.calls + 1 }

end Eval

end BitLang
