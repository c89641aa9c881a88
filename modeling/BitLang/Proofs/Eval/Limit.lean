/-
# The limit is a sharp threshold

An evaluation that ends with an answer of its own, and not because of the limit,
has needed as many levels as its tally says.  Under every limit that admits these
levels it runs in exactly the same way, and under every smaller one it is cut off.

The statement is proved for plans, where it has to account for the work done
before: a limit below a level that was reached earlier is never met, because the
run would have ended there.  Two checks keep the limit, one on entering a level and
one on calling a function; the second runs ahead of the first by one level, which
the body of the function then enters.
-/

import BitLang.Proofs.Eval.Fuel
import Mathlib.Tactic.ByContra

namespace BitLang

namespace Outcome

variable {α : Type}

/-- The evaluation came to a value or to an error that is not the limit's, with the
given work done. -/
inductive Answers : Outcome α → Tally → Prop
  | value {a : α} {tally : Tally} : Answers (.value a tally) tally
  | failure {error : EvalError} {tally : Tally} :
      error.cause.class ≠ .resourceExhausted → Answers (.failure error tally) tally

/-- The evaluation was cut off by the limit. -/
def HitsLimit (outcome : Outcome α) : Prop :=
  ∃ error tally, outcome = .failure error tally ∧ error.cause.class = .resourceExhausted

theorem Answers.ne_outOfFuel {outcome : Outcome α} {tally : Tally} (h : outcome.Answers tally) :
    outcome ≠ .outOfFuel := by
  cases h with
  | value => exact value_ne_outOfFuel _ _
  | failure => exact failure_ne_outOfFuel _ _

theorem HitsLimit.ne_outOfFuel {outcome : Outcome α} (h : outcome.HitsLimit) :
    outcome ≠ .outOfFuel := by
  rcases h with ⟨error, tally, rfl, -⟩
  exact failure_ne_outOfFuel error tally

end Outcome

namespace Eval

variable {α β : Type}

/-- How an evaluation that depends on the limit behaves under all limits, given that
under one of them it leads from one tally to another: levels are only added, limits
that admit the levels reached make no difference, and smaller ones cut it off. -/
structure SharpAt (x : (limit : Int) → Eval α) (limit : Int) (tally later : Tally) : Prop where
  deepest_le : tally.deepest ≤ later.deepest
  above : ∀ other : Int, later.deepest ≤ other → (x other).run tally = (x limit).run tally
  below : ∀ other : Int, tally.deepest ≤ other → other < later.deepest →
    ((x other).run tally).HitsLimit

/-- The limit is a sharp threshold for the evaluation, wherever it starts. -/
def Sharp (x : (limit : Int) → Eval α) : Prop :=
  ∀ limit tally later, ((x limit).run tally).Answers later → SharpAt x limit tally later

theorem sharp_pure (a : α) : Sharp fun _ => (pure a : Eval α) := by
  intro limit tally later h
  cases h
  exact ⟨Nat.le_refl _, fun _ _ => rfl, fun other hle hlt => by omega⟩

theorem sharp_fail (pos : Position) (cause : EvalError.Cause) :
    Sharp fun _ => (fail pos cause : Eval α) := by
  intro limit tally later h
  cases h
  exact ⟨Nat.le_refl _, fun _ _ => rfl, fun other hle hlt => by omega⟩

theorem hitsLimit_bind {x : Eval α} {f : α → Eval β} {tally : Tally}
    (h : (x.run tally).HitsLimit) : ((x >>= f).run tally).HitsLimit := by
  rcases h with ⟨error, later, hrun, hclass⟩
  refine ⟨error, later, ?_, hclass⟩
  rw [run_bind, hrun]

/-- What an evaluation in two parts does: either both parts come to an answer, or the
first ends with an error that is an answer. -/
theorem answers_bind {x : Eval α} {f : α → Eval β} {tally later : Tally}
    (h : ((x >>= f).run tally).Answers later) :
    (∃ a mid, x.run tally = .value a mid ∧ ((f a).run mid).Answers later) ∨
      ∃ error, x.run tally = .failure error later ∧
        error.cause.class ≠ .resourceExhausted := by
  rw [run_bind] at h
  cases hrun : x.run tally with
  | value a mid =>
      rw [hrun] at h
      exact .inl ⟨a, mid, rfl, h⟩
  | failure error mid =>
      rw [hrun] at h
      cases h with
      | failure hclass => exact .inr ⟨error, rfl, hclass⟩
  | outOfFuel =>
      rw [hrun] at h
      cases h

theorem Sharp.bind {x : (limit : Int) → Eval α} {f : (limit : Int) → α → Eval β}
    (hx : Sharp x) (hf : ∀ a, Sharp fun limit => f limit a) :
    Sharp fun limit => x limit >>= f limit := by
  intro limit tally later h
  rcases answers_bind h with ⟨a, mid, hrun, hanswer⟩ | ⟨error, hrun, hclass⟩
  · have first := hx limit tally mid (by rw [hrun]; exact .value)
    have second := hf a limit mid later hanswer
    -- a limit that admits the levels of the first part leads to the second part
    have reach : ∀ other : Int, mid.deepest ≤ other →
        (x other >>= f other).run tally = (f other a).run mid := by
      intro other hle
      rw [run_bind, first.above other hle, hrun]
    refine ⟨Nat.le_trans first.deepest_le second.deepest_le, fun other hle => ?_,
      fun other hle hlt => ?_⟩
    · have hmid : (mid.deepest : Int) ≤ other := by
        have := second.deepest_le
        omega
      rw [reach other hmid, second.above other hle, run_bind, hrun]
    · by_cases hmid : (mid.deepest : Int) ≤ other
      · rw [reach other hmid]
        exact second.below other hmid hlt
      · exact hitsLimit_bind (first.below other hle (by omega))
  · have first := hx limit tally later (by rw [hrun]; exact .failure hclass)
    refine ⟨first.deepest_le, fun other hle => ?_, fun other hle hlt => ?_⟩
    · rw [run_bind, run_bind, first.above other hle, hrun]
    · exact hitsLimit_bind (first.below other hle hlt)

/-- Entering a level keeps the threshold sharp, and the level counts as reached. -/
theorem sharp_enter {x : (limit : Int) → Eval α} (depth : Nat) (pos : Position) (hx : Sharp x)
    {limit : Int} {tally later : Tally}
    (h : ((enter limit depth pos >>= fun _ => x limit).run tally).Answers later) :
    depth ≤ later.deepest ∧
      SharpAt (fun limit => enter limit depth pos >>= fun _ => x limit) limit tally later := by
  -- past the check the run goes on from the tally that counts the level
  have pass : ∀ other : Int, depth ≤ other →
      (enter other depth pos >>= fun _ => x other).run tally =
        (x other).run { tally with deepest := max tally.deepest depth } := by
    intro other hle
    rw [run_bind, run_enter_of_le hle]
  have stop : ∀ other : Int, other < depth →
      ((enter other depth pos >>= fun _ => x other).run tally).HitsLimit := by
    intro other hlt
    exact hitsLimit_bind ⟨_, _, run_enter_of_lt hlt pos tally, rfl⟩
  have hdepth : (depth : Int) ≤ limit := by
    by_contra hlt
    obtain ⟨error, after, hfailure, hclass⟩ := stop limit (by omega)
    rw [hfailure] at h
    cases h with
    | failure hother => exact hother hclass
  rw [pass limit hdepth] at h
  have rest := hx limit _ later h
  have hreached := rest.deepest_le
  simp only at hreached
  refine ⟨by omega, by omega, fun other hle => ?_, fun other hle hlt => ?_⟩
  · rw [pass other (by omega), pass limit hdepth, rest.above other hle]
  · by_cases hother : (depth : Int) ≤ other
    · rw [pass other hother]
      exact rest.below other (by simp only; omega) hlt
    · exact stop other (by omega)

/-- A call keeps the threshold sharp if what is called enters the next level. -/
theorem sharp_call {x : (limit : Int) → Eval α} (depth : Nat) (pos : Position) (hx : Sharp x)
    (henters : ∀ limit tally later, ((x limit).run tally).Answers later →
      depth + 1 ≤ later.deepest) :
    Sharp fun limit => call limit depth pos >>= fun _ => x limit := by
  intro limit tally later h
  have pass : ∀ other : Int, depth < other →
      (call other depth pos >>= fun _ => x other).run tally =
        (x other).run { tally with calls := tally.calls + 1 } := by
    intro other hlt
    rw [run_bind, run_call_of_lt hlt]
  have stop : ∀ other : Int, other ≤ depth →
      ((call other depth pos >>= fun _ => x other).run tally).HitsLimit := by
    intro other hle
    exact hitsLimit_bind ⟨_, _, run_call_of_le hle pos tally, rfl⟩
  have hdepth : (depth : Int) < limit := by
    by_contra hle
    obtain ⟨error, after, hfailure, hclass⟩ := stop limit (by omega)
    rw [hfailure] at h
    cases h with
    | failure hother => exact hother hclass
  rw [pass limit hdepth] at h
  have rest := hx limit _ later h
  have hentered := henters limit _ later h
  refine ⟨rest.deepest_le, fun other hle => ?_, fun other hle hlt => ?_⟩
  · rw [pass other (by omega), pass limit hdepth, rest.above other hle]
  · by_cases hother : (depth : Int) < other
    · rw [pass other hother]
      exact rest.below other hle hlt
    · exact stop other (by omega)

/-- A way to carry out tasks for which the limit is a sharp threshold, and under
which an expression counts its own level as reached. -/
structure SharpTasks (carryOut : (limit : Int) → Task → Eval Value) : Prop where
  sharp : ∀ task, Sharp fun limit => carryOut limit task
  depth_le : ∀ e scope depth limit tally later,
    ((carryOut limit (.expr e scope depth)).run tally).Answers later → depth ≤ later.deepest

theorem Plan.sharp_follow {carryOut : (limit : Int) → Task → Eval Value}
    (h : SharpTasks carryOut) (plan : Plan) :
    Sharp fun limit => plan.follow limit (carryOut limit) := by
  induction plan with
  | done v => exact sharp_pure v
  | fail pos cause => exact sharp_fail pos cause
  | enter depth pos rest ih => exact fun _ _ _ hanswer => (sharp_enter depth pos ih hanswer).2
  | ask task next ih => exact (h.sharp task).bind ih
  | call depth pos body scope next ih =>
      refine sharp_call depth pos ((h.sharp _).bind ih) fun limit tally later hanswer => ?_
      rcases answers_bind hanswer with ⟨v, mid, hrun, hnext⟩ | ⟨error, hrun, hclass⟩
      · have hmid := h.depth_le body scope (depth + 1) limit tally mid (by rw [hrun]; exact .value)
        exact Nat.le_trans hmid (ih v limit mid later hnext).deepest_le
      · exact h.depth_le body scope (depth + 1) limit tally later
          (by rw [hrun]; exact .failure hclass)

theorem Task.sharpTasks_run (fuel : Nat) : SharpTasks fun limit => Task.run limit fuel := by
  induction fuel with
  | zero =>
      refine ⟨fun task limit tally later h => ?_, fun e scope depth limit tally later h => ?_⟩
      · exact absurd (Task.run_zero limit task tally) h.ne_outOfFuel
      · exact absurd (Task.run_zero limit _ tally) h.ne_outOfFuel
  | succ fuel ih =>
      refine ⟨fun task => ?_, fun e scope depth limit tally later h => ?_⟩
      · simp only [Task.run_succ]
        exact Plan.sharp_follow ih task.plan
      · simp only [Task.run_succ] at h
        exact (sharp_enter depth e.pos (Plan.sharp_follow ih _) h).1

end Eval

namespace Expr

open Eval

variable {scope : Scope} {e : Expr}

/-- Every limit that is negative cuts an evaluation off before it does anything. -/
theorem run_hitsLimit_of_neg {other : Int} (h : other < 0) (fuel : Nat) :
    (((Task.expr e scope 0).run other (fuel + 1)).run ⟨0, 0⟩).HitsLimit := by
  rw [Task.run_succ]
  exact hitsLimit_bind ⟨_, _, run_enter_of_lt (by omega) e.pos ⟨0, 0⟩, rfl⟩

/-- If an evaluation answers and has reached a certain level, then under every limit
from that level on it has the same outcome, with the same work done, and under every
smaller limit it is cut off. -/
theorem eval_of_answers {limit : Int} {tally : Tally} (h : (e.eval limit scope).Answers tally) :
    (∀ other : Int, tally.deepest ≤ other → e.eval other scope = e.eval limit scope) ∧
      ∀ other : Int, other < tally.deepest → (e.eval other scope).HitsLimit := by
  obtain ⟨fuel, hfuel⟩ := exists_run_of_eval h.ne_outOfFuel
  rw [← hfuel] at h ⊢
  have sharp := (Task.sharpTasks_run fuel).sharp (.expr e scope 0) limit ⟨0, 0⟩ tally h
  refine ⟨fun other hle => ?_, fun other hlt => ?_⟩
  · have hsame := sharp.above other hle
    have hended : ((Task.expr e scope 0).run other fuel).run ⟨0, 0⟩ ≠ .outOfFuel := by
      rw [hsame]
      exact h.ne_outOfFuel
    rw [eval_of_ended hended, hsame]
  · have hcut : (((Task.expr e scope 0).run other fuel).run ⟨0, 0⟩).HitsLimit := by
      by_cases hneg : other < 0
      · cases fuel with
        | zero => exact absurd (Task.run_zero limit _ _) h.ne_outOfFuel
        | succ fuel => exact run_hitsLimit_of_neg hneg fuel
      · exact sharp.below other (by simpa using hneg) hlt
    rw [eval_of_ended hcut.ne_outOfFuel]
    exact hcut

/-- A function that gives back its argument, called on a single bit. -/
def identityCall : Expr :=
  let nowhere : Span := ⟨.none, .none⟩
  let bit : Expr := .literal nowhere ⟨1, [0x80]⟩
  .combine nowhere (.function nowhere bit (.combine nowhere (.scope nowhere) bit)) bit

/-- The body of a function called on the first level looks its argument up on the
third, so a limit of three is enough and a smaller one is not. -/
theorem eval_identityCall_of_answers :
    (identityCall.eval 10 .empty).Answers ⟨1, 3⟩ ∧
      (∀ other : Int, 3 ≤ other → identityCall.eval other .empty = identityCall.eval 10 .empty) ∧
      ∀ other : Int, other < 3 → (identityCall.eval other .empty).HitsLimit := by
  have hrun : ((Task.expr identityCall .empty 0).run 10 4).run ⟨0, 0⟩ =
      .value (.bits ⟨1, [0x80]⟩) ⟨1, 3⟩ := rfl
  have hanswer : (identityCall.eval 10 .empty).Answers ⟨1, 3⟩ := by
    rw [eval_of_ended (by rw [hrun]; exact Outcome.value_ne_outOfFuel _ _), hrun]
    exact .value
  exact ⟨hanswer, eval_of_answers hanswer⟩

end Expr

end BitLang
