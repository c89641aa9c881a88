/-
# What evaluators settle on

An evaluator is known by its plans: with one more unit of fuel it follows the plan of its task
and spends the rest on the tasks of the plan.  With as much fuel as it takes it settles on an
outcome, or on none if no amount is enough.  What it settles on solves the equation that its
plans state, and is the least solution of it (`settled_eq_follow`, `run_settled_of_solves`), so
two evaluators can be compared by their plans alone and fuel is not mentioned any more.

On the way from fuel to the equation a plan asks for finitely many tasks before it ends, and the
largest amount that one of them takes is enough for all.
-/

import BitLang.Proofs.Eval.Fuel
import Mathlib.Data.List.Basic

namespace BitLang

namespace Eval

variable {limit : Int}

/-! ## Evaluators that follow plans -/

/-- The evaluator that carries out tasks by the given plans. -/
def runBy (plan : Task → Plan) (limit : Int) : (fuel : Nat) → Task → Eval Value
  | 0, _ => exhausted
  | fuel + 1, task => (plan task).follow limit (runBy plan limit fuel)

/-- What the evaluator with the given plans settles on for a task. -/
def settled (plan : Task → Plan) (limit : Int) (task : Task) : Eval Value := fun tally =>
  Fueled.settle fun fuel => (runBy plan limit fuel task).run tally

theorem runBy_plan (limit : Int) (fuel : Nat) :
    runBy Task.plan limit fuel = Task.run limit fuel := by
  induction fuel with
  | zero => exact funext fun task => ext fun tally => (Task.run_zero limit task tally).symm
  | succ fuel ih => exact funext fun task => by rw [runBy, ih, Task.run_succ]

section Settled

variable {plan : Task → Plan}

theorem runBy_of_le {fuel more : Nat} (hle : fuel ≤ more) (task : Task) (tally : Tally)
    (h : (runBy plan limit fuel task).run tally ≠ .outOfFuel) :
    (runBy plan limit more task).run tally = (runBy plan limit fuel task).run tally := by
  induction fuel generalizing more task tally with
  | zero => exact absurd rfl h
  | succ fuel ih =>
      obtain ⟨more, rfl⟩ := Nat.exists_eq_add_of_le' (Nat.le_trans (Nat.le_add_left 1 fuel) hle)
      exact Plan.follow_of_ended (fun task tally => ih (Nat.le_of_succ_le_succ hle) task tally) _
        tally h

theorem settled_of_ended {fuel : Nat} {task : Task} {tally : Tally}
    (h : (runBy plan limit fuel task).run tally ≠ .outOfFuel) :
    (settled plan limit task).run tally = (runBy plan limit fuel task).run tally :=
  Fueled.settle_of_ended (fun _ _ hle => runBy_of_le hle task tally) h

theorem exists_run_of_settled {task : Task} {tally : Tally}
    (h : (settled plan limit task).run tally ≠ .outOfFuel) :
    ∃ fuel, (runBy plan limit fuel task).run tally = (settled plan limit task).run tally :=
  Fueled.exists_run_of_settle h

/-- A bind that ends when everything is settled ends with some amount of fuel. -/
theorem exists_fuel_of_settled_bind {task : Task} {next : Value → Eval Value}
    {nextBy : Nat → Value → Eval Value} {tally : Tally}
    (hmono : ∀ {fuel more}, fuel ≤ more → ∀ v later, (nextBy fuel v).run later ≠ .outOfFuel →
      (nextBy more v).run later = (nextBy fuel v).run later)
    (hnext : ∀ v later, (next v).run later ≠ .outOfFuel →
      ∃ fuel, (nextBy fuel v).run later = (next v).run later)
    (h : (settled plan limit task >>= next).run tally ≠ .outOfFuel) :
    ∃ fuel, (runBy plan limit fuel task >>= nextBy fuel).run tally =
      (settled plan limit task >>= next).run tally := by
  have hended : (settled plan limit task).run tally ≠ .outOfFuel := by
    intro hout
    exact h (by rw [run_bind, hout])
  obtain ⟨first, hfirst⟩ := exists_run_of_settled hended
  rw [run_bind] at h ⊢
  cases hrun : (settled plan limit task).run tally with
  | outOfFuel => exact absurd hrun hended
  | failure error later => exact ⟨first, by rw [run_bind, hfirst, hrun]⟩
  | value v later =>
      rw [hrun] at h
      obtain ⟨second, hsecond⟩ := hnext v later h
      -- the larger of the two amounts is enough for both parts
      refine ⟨max first second, ?_⟩
      rw [run_bind, runBy_of_le (Nat.le_max_left first second) task tally (by rwa [hfirst]),
        hfirst, hrun]
      show (nextBy (max first second) v).run later = (next v).run later
      rw [hmono (Nat.le_max_right first second) v later (by rwa [hsecond]), hsecond]

/-- A plan that ends when its tasks are settled ends with some amount of fuel for them. -/
theorem exists_fuel_of_settled (steps : Plan) (tally : Tally)
    (h : (steps.follow limit (settled plan limit)).run tally ≠ .outOfFuel) :
    ∃ fuel, (steps.follow limit (runBy plan limit fuel)).run tally =
      (steps.follow limit (settled plan limit)).run tally := by
  induction steps generalizing tally with
  | done v => exact ⟨0, rfl⟩
  | fail pos cause => exact ⟨0, rfl⟩
  | enter depth pos rest ih =>
      simp only [Plan.follow, run_bind] at h ⊢
      by_cases hdepth : (depth : Int) ≤ limit
      · rw [run_enter_of_le hdepth] at h ⊢
        exact ih _ h
      · rw [run_enter_of_lt (by omega)]
        exact ⟨0, rfl⟩
  | ask task next ih =>
      exact exists_fuel_of_settled_bind
        (fun hle v => Plan.follow_of_ended (fun task tally => runBy_of_le hle task tally) (next v))
        (fun v later => ih v later) h
  | call depth pos body scope next ih =>
      rw [Plan.follow, run_bind] at h ⊢
      by_cases hdepth : (depth : Int) < limit
      · rw [run_call_of_lt hdepth] at h ⊢
        obtain ⟨fuel, hfuel⟩ := exists_fuel_of_settled_bind
          (fun hle v =>
            Plan.follow_of_ended (fun task tally => runBy_of_le hle task tally) (next v))
          (fun v later => ih v later) h
        refine ⟨fuel, ?_⟩
        rw [Plan.follow, run_bind, run_call_of_lt hdepth]
        exact hfuel
      · rw [run_call_of_le (by omega)]
        exact ⟨0, by rw [Plan.follow, run_bind, run_call_of_le (by omega)]⟩

/-- What an evaluator settles on satisfies the equation that its plans state. -/
theorem settled_eq_follow (plan : Task → Plan) (limit : Int) (task : Task) :
    settled plan limit task = (plan task).follow limit (settled plan limit) := by
  refine ext fun tally => ?_
  by_cases hplan : ((plan task).follow limit (settled plan limit)).run tally = .outOfFuel
  · by_contra hne
    rw [hplan] at hne
    obtain ⟨fuel, hfuel⟩ := exists_run_of_settled hne
    cases fuel with
    | zero => exact hne hfuel.symm
    | succ fuel =>
        rw [← hfuel] at hne
        have hsame := Plan.follow_of_ended (fun _ _ => settled_of_ended) (plan task) tally hne
        exact hne (hsame.symm.trans hplan)
  · obtain ⟨fuel, hfuel⟩ := exists_fuel_of_settled (plan task) tally hplan
    have hrun : (runBy plan limit (fuel + 1) task).run tally =
        ((plan task).follow limit (settled plan limit)).run tally := hfuel
    rw [settled_of_ended (by rwa [hrun]), hrun]

/-- An evaluator settles on the least solution of the equation: any other solution has the
outcomes of the runs that end. -/
theorem run_settled_of_solves {answer : Task → Eval Value}
    (hanswer : ∀ task, answer task = (plan task).follow limit answer) {task : Task} {tally : Tally}
    (h : (settled plan limit task).run tally ≠ .outOfFuel) :
    (answer task).run tally = (settled plan limit task).run tally := by
  have hrun : ∀ fuel task tally, (runBy plan limit fuel task).run tally ≠ .outOfFuel →
      (answer task).run tally = (runBy plan limit fuel task).run tally := by
    intro fuel
    induction fuel with
    | zero => exact fun task tally h => absurd rfl h
    | succ fuel ih =>
        intro task tally h
        rw [hanswer task]
        exact Plan.follow_of_ended ih (plan task) tally h
  obtain ⟨fuel, hfuel⟩ := exists_run_of_settled h
  rw [← hfuel] at h ⊢
  exact hrun fuel task tally h

/-- Evaluators whose equations have the same solutions settle on the same outcomes. -/
theorem settled_eq_of_solves {other : Task → Plan}
    (hplan : ∀ task, settled plan limit task = (other task).follow limit (settled plan limit))
    (hother : ∀ task, settled other limit task = (plan task).follow limit (settled other limit)) :
    settled plan limit = settled other limit := by
  refine funext fun task => ext fun tally => ?_
  by_cases h : (settled plan limit task).run tally = .outOfFuel
  · by_contra hne
    rw [h] at hne
    have hsame := run_settled_of_solves hplan (Ne.symm hne)
    exact hne (h.symm.trans hsame)
  · exact (run_settled_of_solves hother h).symm

end Settled

/-- Ends with a result that is already there. -/
def ofResult (pos : Position) : Except EvalError.Cause Value → Eval Value
  | .ok v => pure v
  | .error cause => fail pos cause

end Eval

open Eval

/-- What the evaluation of an expression on a level comes to with as much fuel as it takes. -/
def Expr.evalAt (limit : Int) (scope : Scope) (depth : Nat) (e : Expr) : Eval Value := fun tally =>
  Fueled.settle fun fuel => (Eval.expr limit fuel e scope depth).run tally

/-- What combining two values on a level comes to with as much fuel as it takes. -/
def Value.combineAt (limit : Int) (pos : Position) (depth : Nat) (left right : Value) :
    Eval Value := fun tally =>
  Fueled.settle fun fuel => (Eval.combine limit fuel left right pos depth).run tally

theorem Expr.evalAt_eq_settled (limit : Int) (scope : Scope) (depth : Nat) (e : Expr) :
    e.evalAt limit scope depth = settled Task.plan limit (.expr e scope depth) := by
  unfold evalAt settled
  simp only [runBy_plan]
  rfl

namespace Value

theorem combineAt_eq_settled (limit : Int) (pos : Position) (depth : Nat) (left right : Value) :
    left.combineAt limit pos depth right =
      settled Task.plan limit (.combine left right pos depth) := by
  unfold combineAt settled
  simp only [runBy_plan]
  rfl

/-- Two values whose rule gives a result at once come to that result on every level and under
every limit, without any work. -/
theorem combineAt_of_ruleOf {left right : Value} {result : Except EvalError.Cause Value}
    (h : ruleOf left right = .result result) (limit : Int) (pos : Position) (depth : Nat) :
    left.combineAt limit pos depth right = Eval.ofResult pos result := by
  rw [combineAt_eq_settled, settled_eq_follow, Task.plan_combine, h]
  cases result <;> rfl

/-- A function next to a value is called with it: the body is evaluated one level further down,
under what the function remembers and the argument. -/
theorem combineAt_function (scope : Scope) (pattern : BitSeq) (body : Expr) (argument : Value)
    (limit : Int) (pos : Position) (depth : Nat) :
    (function scope pattern body).combineAt limit pos depth argument =
      call limit depth pos >>= fun _ =>
        body.evalAt limit (scope.insert pattern argument) (depth + 1) := by
  rw [combineAt_eq_settled, settled_eq_follow, Task.plan_combine, Expr.evalAt_eq_settled]
  simp only [ruleOf, Plan.ofRule, Plan.follow, bind_pure]

end Value

end BitLang
