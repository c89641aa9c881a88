/-
# Evaluation

Expressions are evaluated under a scope, at a level, within a limit on levels.
Two values side by side are combined by the one operator of the language, whose
rule depends on their kinds:

  left \ right | bits        | set         | function         | null
  bits         | concatenate | slice       | fold over bits   | length
  set          | look up     | merge       | fold over values | list the keys
  null         | tell the kind of the right operand
  function     | call with the right operand

The operands of a chain share a level, however many they are.  A fold combines
the results of its calls on the level of the fold itself, so the limit does not
bound it, and the recursion is driven by fuel instead.  An evaluation gets as much
fuel as it takes; one that would go on forever ends for lack of fuel.
-/

import BitLang.Eval.Outcome

namespace BitLang

namespace Eval

/-- The integer that a bound of a range denotes. -/
def bound (range : Scope) (i : Nat) (pos : Position) : Eval Nat :=
  match range.get? (.encode i) with
  | none => fail pos (.missingBound i)
  | some (.bits b) => pure b.decode
  | some v => fail pos (.boundNotBits i v.kind)

/-- The window of a bit sequence between the bounds `0` and `1` of a range. -/
def slice (b : BitSeq) (range : Scope) (pos : Position) : Eval Value := do
  let start ← bound range 0 pos
  let stop ← bound range 1 pos
  if stop < start ∨ b.len < stop then fail pos (.outOfRange start stop b.len)
  else pure (.bits (b.slice start stop))

/-- The keys of a set, numbered in order. -/
def keysOf (s : Scope) : Value :=
  .set (.ofList (s.keys.zipIdx.map fun (key, i) => (.encode i, .bits key)))

/-- Calls a function on each element and joins the results from left to right onto
`joined`, which is absent as long as there is none. -/
def fold (call : Value → Eval Value) (join : Value → Value → Eval Value) :
    (joined : Value) → List Value → Eval Value
  | joined, [] => pure (if joined.isAbsent then .null else joined)
  | joined, element :: rest => do
    let result ← call element
    if joined.isAbsent then fold call join result rest
    else
      let joined ← join joined result
      fold call join joined rest

/-- Evaluates the entries of a set onto `done`. -/
def entries (eval : Expr → Eval Value) : (done : Scope) → List (Expr × Expr) → Eval Value
  | done, [] => pure (.set done)
  | done, (key, value) :: rest => do
    match ← eval key with
    | .bits b =>
      let v ← eval value
      entries eval (done.insert b v) rest
    | k => fail key.pos (.keyNotBits k.kind)

/-- Evaluates further operands of a chain and combines each with what came before. -/
def chain (eval : Expr → Eval Value) (join : Position → Value → Value → Eval Value) :
    (left : Value) → List (Span × Expr) → Eval Value
  | left, [] => pure left
  | left, (span, operand) :: rest => do
    let right ← eval operand
    let left ← join span.start left right
    chain eval join left rest

mutual

/-- The value of an expression under a scope. -/
def expr (limit : Int) : (fuel : Nat) → (e : Expr) → (scope : Scope) → (depth : Nat) → Eval Value
  | 0, _, _, _ => exhausted
  | fuel + 1, e, scope, depth => do
    enter limit depth e.pos
    match e with
    | .absent => pure .null
    | .literal _ b => pure (.bits b)
    | .scope _ => pure (.set scope)
    | .set _ es => entries (fun e => expr limit fuel e scope (depth + 1)) .empty es
    | .function span pattern body =>
      match ← expr limit fuel pattern scope (depth + 1) with
      | .bits b => pure (.function scope b body)
      | p => fail span.start (.patternNotBits p.kind)
    | .combine span left right =>
      let (head, operands) := left.spine [(span, right)]
      let first ← expr limit fuel head scope (depth + 1)
      chain (fun e => expr limit fuel e scope (depth + 1))
        (fun pos a b => combine limit fuel a b pos (depth + 1)) first operands

/-- The operator applied to two values, on behalf of the expression at `pos`. -/
def combine (limit : Int) : (fuel : Nat) → (left right : Value) → (pos : Position) →
    (depth : Nat) → Eval Value
  | 0, _, _, _, _ => exhausted
  | fuel + 1, left, right, pos, depth =>
    match left, right with
    | .null, _ => pure (.nat right.kind.code)
    | .function scope pattern body, _ => do
      call limit depth pos
      expr limit fuel body (scope.insert pattern right) (depth + 1)
    | .bits a, .bits b => pure (.bits (a ++ b))
    | .bits a, .set range => slice a range pos
    | .bits a, .function scope pattern body =>
      fold
        (fun v => do
          call limit depth pos
          expr limit fuel body (scope.insert pattern v) (depth + 1))
        (fun a b => combine limit fuel a b pos depth) .absent
        (a.toList.map fun bit => .nat bit.toNat)
    | .bits a, .null => pure (.nat a.len)
    | .set a, .bits b => pure ((a.get? b).getD .null)
    | .set a, .set b => pure (.set (a.merge b))
    | .set a, .function scope pattern body =>
      fold
        (fun v => do
          call limit depth pos
          expr limit fuel body (scope.insert pattern v) (depth + 1))
        (fun a b => combine limit fuel a b pos depth) .absent a.values
    | .set a, .null => pure (keysOf a)
    | _, _ => fail pos (.noRule left.kind right.kind)

end

/-- The fuel that a first run gets. -/
def ample : Nat := 1 <<< 60

/-- Something that is run with an amount of fuel. -/
def Fueled (α : Type) : Type := (fuel : Nat) → Outcome α

/-- The outcome of the first run that ends, where each gets twice the fuel of the
one before. -/
def Fueled.settleFrom {α : Type} (run : Fueled α) (fuel : Nat) : Option (Outcome α) :=
  match run fuel with
  | .outOfFuel => run |>.settleFrom (2 * fuel)
  | outcome => some outcome
partial_fixpoint

/-- What runs come to with as much fuel as it takes. -/
def Fueled.settle {α : Type} (run : Fueled α) : Outcome α :=
  (run.settleFrom ample).getD .outOfFuel

/-- The level limit unless another is chosen. -/
def defaultLimit : Int := 10000

end Eval

/-- Evaluates an expression under a scope, counting from nothing. -/
def Expr.eval (limit : Int) (scope : Scope) (e : Expr) : Outcome Value :=
  Eval.Fueled.settle fun fuel => (Eval.expr limit fuel e scope 0).run ⟨0, 0⟩

namespace Value

/-- Combines two values that stand in no text. -/
def combine (limit : Int) (left right : Value) : Outcome Value :=
  Eval.Fueled.settle fun fuel => (Eval.combine limit fuel left right .none 0).run ⟨0, 0⟩

end Value

end BitLang
