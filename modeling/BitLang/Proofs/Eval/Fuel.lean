/-
# Fuel and the work done before

A run that ends comes to the same outcome with any larger amount of fuel, so it
makes no difference how the fuel is chosen, and `Expr.eval` is the outcome of every
run that ends.  Nor does it matter to the answer what work was counted before the
run: a tally is only carried along.
-/

import BitLang.Proofs.Eval.Plan

namespace BitLang

namespace Outcome

variable {α : Type}

theorem value_ne_outOfFuel (a : α) (tally : Tally) : value a tally ≠ outOfFuel := by
  intro h
  cases h

theorem failure_ne_outOfFuel (error : EvalError) (tally : Tally) :
    (failure error tally : Outcome α) ≠ outOfFuel := by
  intro h
  cases h

end Outcome

namespace Eval

variable {α β : Type}

/-! ## More fuel -/

/-- An evaluation that agrees with another where that one ends still does so when
both go on in ways that agree likewise. -/
theorem run_bind_of_ended {x x' : Eval α} {f f' : α → Eval β} {tally : Tally}
    (hx : x.run tally ≠ .outOfFuel → x'.run tally = x.run tally)
    (hf : ∀ a later, (f a).run later ≠ .outOfFuel → (f' a).run later = (f a).run later)
    (h : (x >>= f).run tally ≠ .outOfFuel) :
    (x' >>= f').run tally = (x >>= f).run tally := by
  have hended : x.run tally ≠ .outOfFuel := by
    intro hout
    exact h (by rw [run_bind, hout])
  rw [run_bind] at h
  rw [run_bind, run_bind, hx hended]
  cases hrun : x.run tally with
  | value a later =>
      rw [hrun] at h
      exact hf a later h
  | failure error later => rfl
  | outOfFuel => exact absurd hrun hended

theorem Plan.follow_of_ended {limit : Int} {first second : Task → Eval Value}
    (hagree : ∀ task tally, (first task).run tally ≠ .outOfFuel →
      (second task).run tally = (first task).run tally)
    (plan : Plan) (tally : Tally) (h : (plan.follow limit first).run tally ≠ .outOfFuel) :
    (plan.follow limit second).run tally = (plan.follow limit first).run tally := by
  induction plan generalizing tally with
  | done v => rfl
  | fail pos cause => rfl
  | enter depth pos rest ih =>
      exact run_bind_of_ended (fun _ => rfl) (fun _ later => ih later) h
  | ask task next ih =>
      exact run_bind_of_ended (hagree task tally) (fun v later => ih v later) h
  | call depth pos body scope next ih =>
      exact run_bind_of_ended (fun _ => rfl)
        (fun _ later => run_bind_of_ended (hagree _ later) (fun v later => ih v later)) h

/-- One more unit of fuel changes no outcome of a run that ends. -/
theorem Task.run_succ_of_ended {limit : Int} {fuel : Nat} {task : Task} {tally : Tally}
    (h : (task.run limit fuel).run tally ≠ .outOfFuel) :
    (task.run limit (fuel + 1)).run tally = (task.run limit fuel).run tally := by
  induction fuel generalizing task tally with
  | zero => exact absurd (Task.run_zero limit task tally) h
  | succ fuel ih =>
      rw [Task.run_succ] at h
      rw [Task.run_succ limit (fuel + 1), Task.run_succ limit fuel]
      exact Plan.follow_of_ended (fun _ _ => ih) task.plan tally h

/-- More fuel changes no outcome of a run that ends. -/
theorem Task.run_of_le {limit : Int} {fuel more : Nat} {task : Task} {tally : Tally}
    (hle : fuel ≤ more) (h : (task.run limit fuel).run tally ≠ .outOfFuel) :
    (task.run limit more).run tally = (task.run limit fuel).run tally := by
  obtain ⟨extra, rfl⟩ := Nat.exists_eq_add_of_le hle
  induction extra with
  | zero => rfl
  | succ extra ih =>
      have hsame := ih (Nat.le_add_right fuel extra)
      rw [← hsame] at h
      exact (Task.run_succ_of_ended h).trans hsame

/-! ## As much fuel as it takes -/

namespace Fueled

variable {run : Fueled α}

/-- A run that has ended keeps its outcome with more fuel. -/
def Monotone (run : Fueled α) : Prop :=
  ∀ less more, less ≤ more → run less ≠ .outOfFuel → run more = run less

/-- Doubling the fuel, from whatever amount, leads to the outcome of a run that ends. -/
theorem settleFrom_of_ended (hmono : run.Monotone) {fuel : Nat} (h : run fuel ≠ .outOfFuel)
    {start : Nat} (hstart : 0 < start) : run.settleFrom start = some (run fuel) := by
  -- each doubling brings the amount closer to `fuel`
  induction hgap : fuel - start using Nat.strongRecOn generalizing start with
  | ind gap ih =>
      by_cases hout : run start = .outOfFuel
      · have hlt : start < fuel := by
          apply Nat.lt_of_not_le
          intro hle
          rw [hmono fuel start hle h] at hout
          exact h hout
        rw [settleFrom, hout]
        exact ih (fuel - 2 * start) (by omega) (by omega) rfl
      · have hsame : run start = run fuel := by
          rw [← hmono start (max start fuel) (Nat.le_max_left ..) hout,
            hmono fuel (max start fuel) (Nat.le_max_right ..) h]
        rw [settleFrom, hsame]
        split
        · contradiction
        · rfl

/-- Runs settle on the outcome of any run among them that ends. -/
theorem settle_of_ended (hmono : run.Monotone) {fuel : Nat} (h : run fuel ≠ .outOfFuel) :
    run.settle = run fuel := by
  have hample : 0 < ample := by decide
  rw [settle, settleFrom_of_ended hmono h hample, Option.getD_some]

/-- What runs settle on is the outcome of one of them. -/
theorem exists_run_of_settle (h : run.settle ≠ .outOfFuel) : ∃ fuel, run fuel = run.settle := by
  cases hfrom : run.settleFrom ample with
  | none =>
      rw [settle, hfrom] at h
      exact absurd rfl h
  | some outcome =>
      rw [settle, hfrom, Option.getD_some]
      refine settleFrom.partial_correctness run (fun _ outcome => ∃ fuel, run fuel = outcome)
        ?_ ample outcome hfrom
      intro again hagain start outcome hsome
      split at hsome
      · exact hagain _ _ hsome
      · exact ⟨start, Option.some.inj hsome⟩

end Fueled

end Eval

open Eval

namespace Expr

variable {limit : Int} {scope : Scope} {e : Expr}

/-- Evaluation comes to the outcome of every run that ends. -/
theorem eval_of_ended {fuel : Nat}
    (h : ((Task.expr e scope 0).run limit fuel).run ⟨0, 0⟩ ≠ .outOfFuel) :
    e.eval limit scope = ((Task.expr e scope 0).run limit fuel).run ⟨0, 0⟩ :=
  Fueled.settle_of_ended (fun _ _ => @Task.run_of_le limit _ _ (.expr e scope 0) ⟨0, 0⟩) h

theorem exists_run_of_eval (h : e.eval limit scope ≠ .outOfFuel) :
    ∃ fuel, ((Task.expr e scope 0).run limit fuel).run ⟨0, 0⟩ = e.eval limit scope :=
  Fueled.exists_run_of_settle h

end Expr

namespace Eval

/-! ## Work done before -/

theorem run_bind_result?_congr {x : Eval α} {f : α → Eval β} {first second : Tally}
    (hx : (x.run first).result? = (x.run second).result?)
    (hf : ∀ a first second, ((f a).run first).result? = ((f a).run second).result?) :
    ((x >>= f).run first).result? = ((x >>= f).run second).result? := by
  rw [run_bind, run_bind]
  cases hfirst : x.run first <;> cases hsecond : x.run second <;>
    simp only [hfirst, hsecond, Outcome.result?, Option.some.injEq, Except.ok.injEq,
      Except.error.injEq, reduceCtorEq] at hx
  · subst hx
    exact hf _ _ _
  · subst hx
    rfl
  · rfl

theorem enter_result? (limit : Int) (depth : Nat) (pos : Position) (first second : Tally) :
    ((enter limit depth pos).run first).result? =
      ((enter limit depth pos).run second).result? := by
  by_cases h : (depth : Int) ≤ limit
  · rw [run_enter_of_le h, run_enter_of_le h]
    rfl
  · rw [run_enter_of_lt (by omega), run_enter_of_lt (by omega)]
    rfl

theorem call_result? (limit : Int) (depth : Nat) (pos : Position) (first second : Tally) :
    ((call limit depth pos).run first).result? =
      ((call limit depth pos).run second).result? := by
  by_cases h : (depth : Int) < limit
  · rw [run_call_of_lt h, run_call_of_lt h]
    rfl
  · rw [run_call_of_le (by omega), run_call_of_le (by omega)]
    rfl

theorem Plan.follow_result? {limit : Int} {carryOut : Task → Eval Value}
    (hagree : ∀ task first second,
      ((carryOut task).run first).result? = ((carryOut task).run second).result?)
    (plan : Plan) (first second : Tally) :
    ((plan.follow limit carryOut).run first).result? =
      ((plan.follow limit carryOut).run second).result? := by
  induction plan generalizing first second with
  | done v => rfl
  | fail pos cause => rfl
  | enter depth pos rest ih =>
      exact run_bind_result?_congr (enter_result? ..) (fun _ => ih)
  | ask task next ih =>
      exact run_bind_result?_congr (hagree ..) ih
  | call depth pos body scope next ih =>
      exact run_bind_result?_congr (call_result? ..)
        (fun _ _ _ => run_bind_result?_congr (hagree ..) ih)

/-- The answer to a task does not depend on the work done before it. -/
theorem Task.run_result? (limit : Int) (fuel : Nat) (task : Task) (first second : Tally) :
    ((task.run limit fuel).run first).result? = ((task.run limit fuel).run second).result? := by
  induction fuel generalizing task first second with
  | zero => rw [Task.run_zero, Task.run_zero]
  | succ fuel ih =>
      rw [Task.run_succ]
      exact Plan.follow_result? (fun task => ih task) task.plan first second

theorem Task.run_value_of_run_value {limit : Int} {fuel : Nat} {task : Task} {v : Value}
    {first later : Tally} (h : (task.run limit fuel).run first = .value v later)
    (second : Tally) : ∃ later, (task.run limit fuel).run second = .value v later := by
  have hresult := Task.run_result? limit fuel task first second
  rw [h] at hresult
  cases hrun : (task.run limit fuel).run second <;>
    simp only [hrun, Outcome.result?, Option.some.injEq, Except.ok.injEq, reduceCtorEq] at hresult
  subst hresult
  exact ⟨_, rfl⟩

theorem Task.run_ended_of_run_ended {limit : Int} {fuel : Nat} {task : Task} {first : Tally}
    (h : (task.run limit fuel).run first ≠ .outOfFuel) (second : Tally) :
    (task.run limit fuel).run second ≠ .outOfFuel := by
  intro hout
  have hresult := Task.run_result? limit fuel task first second
  rw [hout] at hresult
  cases hrun : (task.run limit fuel).run first <;>
    simp only [hrun, Outcome.result?, reduceCtorEq] at hresult
  exact h hrun

end Eval

end BitLang
