/-
# Plans

What the evaluator does with one expression, or with one pair of values, is laid
out here as a plan: the smaller tasks it asks for, in order, each with what to do
once its answer is there.  A plan does not know the limit, nor how its tasks are
carried out; both come in when the plan is followed.

`Task.run_succ` says that the evaluator follows exactly these plans.  A fact about
every plan is therefore a fact about every run, and later proofs need not walk
through the loops of the evaluator again.
-/

import BitLang.Eval.Machine

namespace BitLang.Eval

variable {α β : Type}

/-! ## The monad of evaluations -/

theorem run_bind (x : Eval α) (f : α → Eval β) (tally : Tally) :
    (x >>= f).run tally =
      match x.run tally with
      | .value a tally => (f a).run tally
      | .failure error tally => .failure error tally
      | .outOfFuel => .outOfFuel := rfl

theorem run_enter_of_le {limit : Int} {depth : Nat} (h : depth ≤ limit) (pos : Position)
    (tally : Tally) :
    (enter limit depth pos).run tally =
      .value () { tally with deepest := max tally.deepest depth } := by
  unfold run enter
  rw [if_neg (by omega)]

theorem run_enter_of_lt {limit : Int} {depth : Nat} (h : limit < depth) (pos : Position)
    (tally : Tally) :
    (enter limit depth pos).run tally = .failure ⟨pos, .tooDeep limit⟩ tally := by
  unfold run enter
  rw [if_pos h]

theorem run_call_of_lt {limit : Int} {depth : Nat} (h : depth < limit) (pos : Position)
    (tally : Tally) :
    (call limit depth pos).run tally = .value () { tally with calls := tally.calls + 1 } := by
  unfold run call
  rw [if_neg (by omega)]

theorem run_call_of_le {limit : Int} {depth : Nat} (h : limit ≤ depth) (pos : Position)
    (tally : Tally) :
    (call limit depth pos).run tally = .failure ⟨pos, .tooDeep limit⟩ tally := by
  unfold run call
  rw [if_pos h]

/-- Two evaluations that come to the same outcome after any work are the same. -/
theorem ext {x y : Eval α} (h : ∀ tally, x.run tally = y.run tally) : x = y := funext h

instance : LawfulMonad Eval := LawfulMonad.mk' Eval
  (fun x => ext fun tally => by
    show (x >>= fun a => pure a).run tally = x.run tally
    rw [run_bind]
    cases x.run tally <;> rfl)
  (fun _ _ => rfl)
  (fun x f g => ext fun tally => by
    simp only [run_bind]
    cases x.run tally <;> rfl)

theorem bind_pure (x : Eval α) : (x >>= fun a => pure a) = x :=
  (bind_pure_comp id x).trans (id_map x)

/-! ## Tasks and plans -/

/-- Something the evaluator is given to do: find the value of an expression, or
combine two values. -/
inductive Task where
  | expr (e : Expr) (scope : Scope) (depth : Nat)
  | combine (left right : Value) (pos : Position) (depth : Nat)

namespace Task

/-- The evaluator at work on a task. -/
def run (limit : Int) (fuel : Nat) : Task → Eval Value
  | expr e scope depth => Eval.expr limit fuel e scope depth
  | combine left right pos depth => Eval.combine limit fuel left right pos depth

/-- The level of a task. -/
def depth : Task → Nat
  | expr _ _ depth => depth
  | combine _ _ _ depth => depth

end Task

/-- What is done for a task: it ends with a value or an error, enters a level, asks
for the answer to another task, or calls a function, whose body is a task one level
further down. -/
inductive Plan where
  | done (v : Value)
  | fail (pos : Position) (cause : EvalError.Cause)
  | enter (depth : Nat) (pos : Position) (rest : Plan)
  | ask (task : Task) (next : Value → Plan)
  | call (depth : Nat) (pos : Position) (body : Expr) (scope : Scope) (next : Value → Plan)

namespace Plan

/-- Follows a plan within a limit, given a way to carry out its tasks. -/
def follow (limit : Int) (carryOut : Task → Eval Value) : Plan → Eval Value
  | done v => pure v
  | fail pos cause => Eval.fail pos cause
  | enter depth pos rest => do
    Eval.enter limit depth pos
    rest.follow limit carryOut
  | ask task next => do
    let v ← carryOut task
    (next v).follow limit carryOut
  | call depth pos body scope next => do
    Eval.call limit depth pos
    let v ← carryOut (.expr body scope (depth + 1))
    (next v).follow limit carryOut

/-- Ends with a result that is already there. -/
def ofResult (pos : Position) : Except EvalError.Cause Value → Plan
  | .ok v => done v
  | .error cause => fail pos cause

/-- The plan for the entries of a set. -/
def entries (scope : Scope) (depth : Nat) : (bound : Scope) → List (Expr × Expr) → Plan
  | bound, [] => done (.set bound)
  | bound, (key, value) :: rest =>
    ask (.expr key scope depth) fun
      | .bits b =>
        ask (.expr value scope depth) fun v => entries scope depth (bound.insert b v) rest
      | k => fail key.pos (.keyNotBits k.kind)

/-- The plan for the further operands of a chain. -/
def chain (scope : Scope) (depth : Nat) : (left : Value) → List (Span × Expr) → Plan
  | left, [] => done left
  | left, (span, operand) :: rest =>
    ask (.expr operand scope depth) fun right =>
      ask (.combine left right span.start depth) fun left => chain scope depth left rest

/-- The plan for folding a function over elements. -/
def fold (scope : Scope) (pattern : BitSeq) (body : Expr) (pos : Position) (depth : Nat) :
    (joined : Value) → List Value → Plan
  | joined, [] => done (if joined.isAbsent then .null else joined)
  | joined, element :: rest =>
    call depth pos body (scope.insert pattern element) fun result =>
      if joined.isAbsent then fold scope pattern body pos depth result rest
      else ask (.combine joined result pos depth) fun joined =>
        fold scope pattern body pos depth joined rest

end Plan

/-- The integer that a bound of a range denotes, or what is wrong with it. -/
def boundOf (range : Scope) (i : Nat) : Except EvalError.Cause Nat :=
  match range.get? (.encode i) with
  | none => .error (.missingBound i)
  | some (.bits b) => .ok b.decode
  | some v => .error (.boundNotBits i v.kind)

/-- The window of a bit sequence that a range asks for, or what is wrong with it. -/
def sliceOf (b : BitSeq) (range : Scope) : Except EvalError.Cause Value := do
  let start ← boundOf range 0
  let stop ← boundOf range 1
  if stop < start ∨ b.len < stop then .error (.outOfRange start stop b.len)
  else .ok (.bits (b.slice start stop))

/-- What combining two values amounts to: a result at once, a call of a function, or
a fold of a function over elements. -/
inductive Rule where
  | result (result : Except EvalError.Cause Value)
  | call (scope : Scope) (pattern : BitSeq) (body : Expr) (argument : Value)
  | fold (scope : Scope) (pattern : BitSeq) (body : Expr) (elements : List Value)

/-- The rule for two values. -/
def ruleOf (left right : Value) : Rule :=
  match left, right with
  | .null, _ => .result (.ok (.nat right.kind.code))
  | .function scope pattern body, _ => .call scope pattern body right
  | .bits a, .bits b => .result (.ok (.bits (a ++ b)))
  | .bits a, .set range => .result (sliceOf a range)
  | .bits a, .function scope pattern body =>
    .fold scope pattern body (a.toList.map fun bit => .nat bit.toNat)
  | .bits a, .null => .result (.ok (.nat a.len))
  | .set a, .bits b => .result (.ok ((a.get? b).getD .null))
  | .set a, .set b => .result (.ok (.set (a.merge b)))
  | .set a, .function scope pattern body => .fold scope pattern body a.values
  | .set a, .null => .result (.ok (keysOf a))
  | _, _ => .result (.error (.noRule left.kind right.kind))

/-- The plan for a rule. -/
def Plan.ofRule (pos : Position) (depth : Nat) : Rule → Plan
  | .result result => ofResult pos result
  | .call scope pattern body argument => call depth pos body (scope.insert pattern argument) done
  | .fold scope pattern body elements => fold scope pattern body pos depth .absent elements

/-- The plan of a task. -/
def Task.plan : Task → Plan
  | expr e scope depth => .enter depth e.pos <|
    match e with
    | .absent => .done .null
    | .literal _ b => .done (.bits b)
    | .scope _ => .done (.set scope)
    | .set _ es => .entries scope (depth + 1) .empty es
    | .function span pattern body =>
      .ask (.expr pattern scope (depth + 1)) fun
        | .bits b => .done (.function scope b body)
        | p => .fail span.start (.patternNotBits p.kind)
    | .combine span left right =>
      .ask (.expr (left.spine [(span, right)]).1 scope (depth + 1)) fun first =>
        .chain scope (depth + 1) first (left.spine [(span, right)]).2
  | combine left right pos depth => .ofRule pos depth (ruleOf left right)

theorem Task.plan_combine (left right : Value) (pos : Position) (depth : Nat) :
    (combine left right pos depth).plan = .ofRule pos depth (ruleOf left right) := rfl

/-! ## The evaluator follows the plans -/

section Following

variable (limit : Int) (carryOut : Task → Eval Value)

theorem follow_entries (scope bound : Scope) (depth : Nat) (es : List (Expr × Expr)) :
    (Plan.entries scope depth bound es).follow limit carryOut =
      entries (fun e => carryOut (.expr e scope depth)) bound es := by
  induction es generalizing bound with
  | nil => rfl
  | cons entry rest ih =>
      rcases entry with ⟨key, value⟩
      simp only [Plan.entries, Plan.follow, entries]
      congr 1
      funext k
      cases k <;> simp only [Plan.follow, ih]

theorem follow_chain (scope : Scope) (depth : Nat) (left : Value) (operands : List (Span × Expr)) :
    (Plan.chain scope depth left operands).follow limit carryOut =
      chain (fun e => carryOut (.expr e scope depth))
        (fun pos a b => carryOut (.combine a b pos depth)) left operands := by
  induction operands generalizing left with
  | nil => rfl
  | cons operand rest ih => simp only [Plan.chain, Plan.follow, chain, ih]

theorem follow_fold (scope : Scope) (pattern : BitSeq) (body : Expr) (pos : Position)
    (depth : Nat) (joined : Value) (elements : List Value) :
    (Plan.fold scope pattern body pos depth joined elements).follow limit carryOut =
      fold
        (fun v => do
          call limit depth pos
          carryOut (.expr body (scope.insert pattern v) (depth + 1)))
        (fun a b => carryOut (.combine a b pos depth)) joined elements := by
  induction elements generalizing joined with
  | nil => rfl
  | cons element rest ih =>
      simp only [Plan.fold, Plan.follow, fold, bind_assoc]
      congr 1
      funext _
      congr 1
      funext result
      split
      · exact ih result
      · simp only [Plan.follow, ih]

theorem follow_ofResult_sliceOf (b : BitSeq) (range : Scope) (pos : Position) :
    (Plan.ofResult pos (sliceOf b range)).follow limit carryOut = slice b range pos := by
  have hbound (i : Nat) : bound range i pos =
      match boundOf range i with
      | .ok n => pure n
      | .error cause => fail pos cause := by
    unfold bound boundOf
    cases range.get? (.encode i) with
    | none => rfl
    | some v => cases v <;> rfl
  unfold sliceOf slice
  rw [hbound 0, hbound 1]
  cases boundOf range 0 with
  | error cause => rfl
  | ok start =>
      cases boundOf range 1 with
      | error cause => rfl
      | ok stop =>
          show (Plan.ofResult pos (if stop < start ∨ b.len < stop then _ else _)).follow
            limit carryOut = if stop < start ∨ b.len < stop then _ else _
          split <;> rfl

end Following

/-- With one more unit of fuel, the evaluator follows the plan of its task and
spends the rest on the tasks of the plan. -/
theorem Task.run_succ (limit : Int) (fuel : Nat) (task : Task) :
    task.run limit (fuel + 1) = task.plan.follow limit (Task.run limit fuel) := by
  cases task with
  | expr e scope depth =>
      simp only [Task.run, Eval.expr, Task.plan, Plan.follow]
      congr 1
      funext _
      cases e with
      | absent | literal | scope => rfl
      | set span es => exact (follow_entries limit (Task.run limit fuel) _ _ _ _).symm
      | function span pattern body =>
          simp only [Plan.follow]
          congr 1
          funext p
          cases p <;> rfl
      | combine span left right => simp only [Plan.follow, follow_chain, Task.run]
  | combine left right pos depth =>
      simp only [Task.run, Eval.combine, Task.plan_combine, ruleOf]
      split <;> simp only [Plan.ofRule, follow_fold, follow_ofResult_sliceOf] <;>
        simp only [Plan.ofResult, Plan.follow, Task.run, bind_pure]

theorem Task.run_zero (limit : Int) (task : Task) (tally : Tally) :
    (task.run limit 0).run tally = .outOfFuel := by
  cases task <;> rfl

/-! ## Runs from the runs that they ask for -/

section Asking

variable {limit : Int} {carryOut : Task → Eval Value} {v : Value} {tally later : Tally}

/-- A plan goes on from the value that the task it asks for comes to. -/
theorem Plan.run_ask {task : Task} {next : Value → Plan}
    (h : (carryOut task).run tally = .value v later) :
    ((ask task next).follow limit carryOut).run tally =
      ((next v).follow limit carryOut).run later := by
  rw [follow, run_bind, h]

/-- A chain goes on from what its next operand is combined to. -/
theorem Plan.run_chain {scope : Scope} {depth : Nat} {left right : Value} {span : Span}
    {operand : Expr} {rest : List (Span × Expr)} {between : Tally}
    (hright : (carryOut (.expr operand scope depth)).run tally = .value right between)
    (hjoin : (carryOut (.combine left right span.start depth)).run between = .value v later) :
    ((chain scope depth left ((span, operand) :: rest)).follow limit carryOut).run tally =
      ((chain scope depth v rest).follow limit carryOut).run later := by
  rw [chain, run_ask hright, run_ask hjoin]

/-- Combined operands are a chain that starts from the value of the first one. -/
theorem Task.run_combine {fuel : Nat} {scope : Scope} {depth : Nat} {span : Span}
    {left right : Expr} (hdepth : depth ≤ limit)
    (hfirst : ((expr (left.spine [(span, right)]).1 scope (depth + 1)).run limit fuel).run
      { tally with deepest := max tally.deepest depth } = .value v later) :
    ((expr (.combine span left right) scope depth).run limit (fuel + 1)).run tally =
      ((Plan.chain scope (depth + 1) v (left.spine [(span, right)]).2).follow limit
        (run limit fuel)).run later := by
  rw [run_succ, plan, Plan.follow, run_bind, run_enter_of_le hdepth]
  exact Plan.run_ask hfirst

end Asking

end BitLang.Eval
