/-
# When evaluation returns

The limit on levels does not by itself make evaluation return: the results of a
fold are joined on the level of the fold, and joining two results may be another
fold.  This module says exactly when an evaluation does not return.

A task *starts* another if its plan gets as far as asking for it.  A task returns
exactly when the tasks it starts, the tasks they start, and so on never go on
forever (`Task.returns_iff_acc`).  Every step of such a descent goes one level
down, except from one join of a fold to a join that it makes in turn, and below the
limit no task starts anything.  So all that can keep an evaluation from returning is
an endless descent of folds on a single level.
-/

import BitLang.Expr.Parser
import BitLang.Proofs.Eval.Fuel
import Mathlib.Logic.Relation
import Mathlib.Order.WellFounded

namespace BitLang

namespace Eval

variable {limit : Int}

/-! ## Tasks that return, and tasks that a task starts -/

/-- The task comes to the value. -/
def Task.Yields (limit : Int) (task : Task) (v : Value) : Prop :=
  ∃ fuel tally later, (task.run limit fuel).run tally = .value v later

/-- Some amount of fuel is enough for the task, whatever work was done before. -/
def Task.Returns (limit : Int) (task : Task) : Prop :=
  ∃ fuel, ∀ tally, (task.run limit fuel).run tally ≠ .outOfFuel

/-- The plan gets as far as starting the task: every task before it came to a value
that leads on to it, and the limit was kept. -/
inductive Plan.Starts (limit : Int) : Plan → Task → Prop
  | enter {depth : Nat} {pos : Position} {rest : Plan} {task : Task} :
      depth ≤ limit → Starts limit rest task → Starts limit (.enter depth pos rest) task
  | asked {task : Task} {next : Value → Plan} : Starts limit (.ask task next) task
  | afterAsked {asked task : Task} {next : Value → Plan} {v : Value} :
      asked.Yields limit v → Starts limit (next v) task → Starts limit (.ask asked next) task
  | called {depth : Nat} {pos : Position} {body : Expr} {scope : Scope} {next : Value → Plan} :
      depth < limit →
      Starts limit (.call depth pos body scope next) (.expr body scope (depth + 1))
  | afterCalled {depth : Nat} {pos : Position} {body : Expr} {scope : Scope}
      {next : Value → Plan} {v : Value} {task : Task} :
      depth < limit → (Task.expr body scope (depth + 1)).Yields limit v →
      Starts limit (next v) task → Starts limit (.call depth pos body scope next) task

/-- The evaluator, at work on the first task, starts the second. -/
def Task.Starts (limit : Int) (task other : Task) : Prop := task.plan.Starts limit other

/-! ## A task returns exactly when all it starts returns -/

/-- A task that yields a value ends with that value whenever it ends. -/
theorem Task.Yields.run_eq {task : Task} {v : Value} (h : task.Yields limit v) {fuel : Nat}
    {tally : Tally} (hended : (task.run limit fuel).run tally ≠ .outOfFuel) :
    ∃ later, (task.run limit fuel).run tally = .value v later := by
  rcases h with ⟨enough, before, after, hvalue⟩
  -- with the larger of the two amounts of fuel both runs are as they were
  have hmore : (task.run limit (max enough fuel)).run before = .value v after := by
    have hended : (task.run limit enough).run before ≠ .outOfFuel := by
      rw [hvalue]
      exact Outcome.value_ne_outOfFuel v after
    rw [Task.run_of_le (Nat.le_max_left ..) hended, hvalue]
  obtain ⟨later, hlater⟩ := Task.run_value_of_run_value hmore tally
  rw [Task.run_of_le (Nat.le_max_right ..) hended] at hlater
  exact ⟨later, hlater⟩

/-- If a plan can be followed to an end, then so can every task that it starts. -/
theorem Plan.Starts.run_ended {plan : Plan} {task : Task} (h : plan.Starts limit task)
    {fuel : Nat} {tally : Tally}
    (hended : (plan.follow limit (Task.run limit fuel)).run tally ≠ .outOfFuel)
    (start : Tally) : (task.run limit fuel).run start ≠ .outOfFuel := by
  -- what comes first in a plan ends too, and if it yields `v` the plan goes on from `v`
  have after_ask : ∀ {asked : Task} {next : Value → Plan} {tally : Tally},
      (asked.run limit fuel >>= fun v => (next v).follow limit (Task.run limit fuel)).run tally
        ≠ .outOfFuel →
      (asked.run limit fuel).run tally ≠ .outOfFuel ∧
        ∀ v, asked.Yields limit v → ∃ later,
          ((next v).follow limit (Task.run limit fuel)).run later ≠ .outOfFuel := by
    intro asked next tally hended
    have hasked : (asked.run limit fuel).run tally ≠ .outOfFuel := by
      intro hout
      exact hended (by rw [run_bind, hout])
    refine ⟨hasked, fun v hv => ?_⟩
    obtain ⟨later, hlater⟩ := hv.run_eq hasked
    rw [run_bind, hlater] at hended
    exact ⟨later, hended⟩
  induction h generalizing tally with
  | enter hdepth _ ih =>
      rw [Plan.follow, run_bind, run_enter_of_le hdepth] at hended
      exact ih hended
  | asked => exact Task.run_ended_of_run_ended (after_ask hended).1 start
  | afterAsked hv _ ih =>
      obtain ⟨later, hlater⟩ := (after_ask hended).2 _ hv
      exact ih hlater
  | called hdepth =>
      rw [Plan.follow, run_bind, run_call_of_lt hdepth] at hended
      exact Task.run_ended_of_run_ended (after_ask hended).1 start
  | afterCalled hdepth hv _ ih =>
      rw [Plan.follow, run_bind, run_call_of_lt hdepth] at hended
      obtain ⟨later, hlater⟩ := (after_ask hended).2 _ hv
      exact ih hlater

/-- A plan can be followed with enough fuel if its first task returns and, whatever
that task yields, the rest of the plan can be followed. -/
theorem exists_fuel_of_ask {task : Task} {next : Value → Plan} (htask : task.Returns limit)
    (hnext : ∀ v, task.Yields limit v →
      ∃ fuel, ∀ tally, ((next v).follow limit (Task.run limit fuel)).run tally ≠ .outOfFuel) :
    ∃ fuel, ∀ tally, (task.run limit fuel >>= fun v =>
      (next v).follow limit (Task.run limit fuel)).run tally ≠ .outOfFuel := by
  rcases htask with ⟨fuel, hfuel⟩
  cases hrun : (task.run limit fuel).run ⟨0, 0⟩ with
  | outOfFuel => exact absurd hrun (hfuel ⟨0, 0⟩)
  | failure error later =>
      refine ⟨fuel, fun tally => ?_⟩
      have hresult := Task.run_result? limit fuel task ⟨0, 0⟩ tally
      rw [hrun] at hresult
      rw [run_bind]
      cases htally : (task.run limit fuel).run tally <;>
        simp only [htally, Outcome.result?, Option.some.injEq, reduceCtorEq] at hresult
      exact Outcome.failure_ne_outOfFuel _ _
  | value v later =>
      obtain ⟨enough, henough⟩ := hnext v ⟨fuel, _, _, hrun⟩
      refine ⟨max fuel enough, fun tally => ?_⟩
      obtain ⟨after, hafter⟩ := Task.run_value_of_run_value hrun tally
      rw [run_bind, Task.run_of_le (Nat.le_max_left ..) (hfuel tally), hafter]
      show ((next v).follow limit (Task.run limit (max fuel enough))).run after ≠ .outOfFuel
      rw [Plan.follow_of_ended (fun _ _ => Task.run_of_le (Nat.le_max_right fuel enough)) _ _
        (henough after)]
      exact henough after

theorem Plan.exists_fuel (plan : Plan)
    (h : ∀ task, plan.Starts limit task → task.Returns limit) :
    ∃ fuel, ∀ tally, (plan.follow limit (Task.run limit fuel)).run tally ≠ .outOfFuel := by
  induction plan with
  | done v => exact ⟨0, Outcome.value_ne_outOfFuel v⟩
  | fail pos cause => exact ⟨0, Outcome.failure_ne_outOfFuel ⟨pos, cause⟩⟩
  | enter depth pos rest ih =>
      by_cases hdepth : (depth : Int) ≤ limit
      · obtain ⟨fuel, hfuel⟩ := ih fun task hstarts => h task (.enter hdepth hstarts)
        refine ⟨fuel, fun tally => ?_⟩
        rw [Plan.follow, run_bind, run_enter_of_le hdepth]
        exact hfuel _
      · refine ⟨0, fun tally => ?_⟩
        rw [Plan.follow, run_bind, run_enter_of_lt (by omega)]
        exact Outcome.failure_ne_outOfFuel _ _
  | ask task next ih =>
      exact exists_fuel_of_ask (h task .asked) fun v hv =>
        ih v fun other hstarts => h other (.afterAsked hv hstarts)
  | call depth pos body scope next ih =>
      by_cases hdepth : (depth : Int) < limit
      · obtain ⟨fuel, hfuel⟩ := exists_fuel_of_ask (h _ (.called hdepth)) fun v hv =>
          ih v fun other hstarts => h other (.afterCalled hdepth hv hstarts)
        refine ⟨fuel, fun tally => ?_⟩
        rw [Plan.follow, run_bind, run_call_of_lt hdepth]
        exact hfuel _
      · refine ⟨0, fun tally => ?_⟩
        rw [Plan.follow, run_bind, run_call_of_le (by omega)]
        exact Outcome.failure_ne_outOfFuel _ _

/-- A task returns exactly when no endless descent leads from it through tasks that
start one another. -/
theorem Task.returns_iff_acc (limit : Int) (task : Task) :
    task.Returns limit ↔ Acc (fun started starting => starting.Starts limit started) task := by
  constructor
  · rintro ⟨fuel, hfuel⟩
    induction fuel generalizing task with
    | zero => exact absurd (Task.run_zero limit task ⟨0, 0⟩) (hfuel ⟨0, 0⟩)
    | succ fuel ih =>
        refine Acc.intro task fun started hstarts => ih started ?_
        have hended := hfuel ⟨0, 0⟩
        rw [Task.run_succ] at hended
        exact hstarts.run_ended hended
  · intro hacc
    induction hacc with
    | intro task _ ih =>
        obtain ⟨fuel, hfuel⟩ := task.plan.exists_fuel fun started hstarts => ih started hstarts
        exact ⟨fuel + 1, fun tally => by rw [Task.run_succ]; exact hfuel tally⟩

/-! ## Levels along a descent -/

/-- Every task that the plan may ask for, whatever the answers, has the property. -/
def Plan.Asks (P : Task → Prop) : Plan → Prop
  | .done _ => True
  | .fail _ _ => True
  | .enter _ _ rest => rest.Asks P
  | .ask task next => P task ∧ ∀ v, (next v).Asks P
  | .call depth _ body scope next => P (.expr body scope (depth + 1)) ∧ ∀ v, (next v).Asks P

theorem Plan.Starts.of_asks {P : Task → Prop} {plan : Plan} {task : Task}
    (h : plan.Starts limit task) (hasks : plan.Asks P) : P task := by
  induction h with
  | enter _ _ ih => exact ih hasks
  | asked => exact hasks.1
  | afterAsked _ _ ih => exact ih (hasks.2 _)
  | called _ => exact hasks.1
  | afterCalled _ _ _ ih => exact ih (hasks.2 _)

/-- Where a task may lead: one level further down, or from one join of a fold to
another on the same level and on behalf of the same expression. -/
def Task.Leads : Task → Task → Prop
  | .combine _ _ pos depth, .combine _ _ pos' depth' => pos' = pos ∧ depth' = depth
  | task, other => other.depth = task.depth + 1

section Asks

variable {P : Task → Prop}

theorem Plan.asks_entries {scope : Scope} {depth : Nat} (h : ∀ e, P (.expr e scope depth))
    (bound : Scope) (es : List (Expr × Expr)) : (Plan.entries scope depth bound es).Asks P := by
  induction es generalizing bound with
  | nil => exact True.intro
  | cons entry rest ih =>
      refine ⟨h entry.1, fun k => ?_⟩
      cases k with
      | bits b => exact ⟨h entry.2, fun v => ih (bound.insert b v)⟩
      | _ => exact True.intro

theorem Plan.asks_chain {scope : Scope} {depth : Nat} (h : ∀ e, P (.expr e scope depth))
    (hjoin : ∀ a b pos, P (.combine a b pos depth)) (left : Value)
    (operands : List (Span × Expr)) : (Plan.chain scope depth left operands).Asks P := by
  induction operands generalizing left with
  | nil => exact True.intro
  | cons operand rest ih =>
      exact ⟨h operand.2, fun right => ⟨hjoin left right operand.1.start, fun left => ih left⟩⟩

theorem Plan.asks_fold {scope : Scope} {pattern : BitSeq} {body : Expr} {pos : Position}
    {depth : Nat} (h : ∀ scope, P (.expr body scope (depth + 1)))
    (hjoin : ∀ a b, P (.combine a b pos depth)) (joined : Value) (elements : List Value) :
    (Plan.fold scope pattern body pos depth joined elements).Asks P := by
  induction elements generalizing joined with
  | nil => exact True.intro
  | cons element rest ih =>
      refine ⟨h _, fun result => ?_⟩
      split
      · exact ih result
      · exact ⟨hjoin joined result, fun joined => ih joined⟩

end Asks

theorem Task.plan_asks_leads (task : Task) : task.plan.Asks task.Leads := by
  cases task with
  | expr e scope depth =>
      cases e with
      | absent | literal | scope => exact True.intro
      | set span es => exact Plan.asks_entries (fun _ => rfl) .empty es
      | function span pattern body =>
          refine ⟨rfl, fun p => ?_⟩
          cases p <;> exact True.intro
      | combine span left right =>
          exact ⟨rfl, fun first => Plan.asks_chain (fun _ => rfl) (fun _ _ _ => rfl) first _⟩
  | combine left right pos depth =>
      rw [Task.plan_combine]
      cases ruleOf left right with
      | result result => cases result <;> exact True.intro
      | call scope pattern body argument => exact ⟨rfl, fun _ => True.intro⟩
      | fold scope pattern body elements =>
          exact Plan.asks_fold (fun _ => rfl) (fun _ _ => ⟨rfl, rfl⟩) _ _

theorem Task.Starts.leads {task other : Task} (h : task.Starts limit other) :
    task.Leads other :=
  Plan.Starts.of_asks h task.plan_asks_leads

theorem Plan.Starts.fold_depth_lt {scope : Scope} {pattern : BitSeq} {body : Expr}
    {pos : Position} {depth : Nat} {joined : Value} {elements : List Value} {task : Task}
    (h : (Plan.fold scope pattern body pos depth joined elements).Starts limit task) :
    depth < limit := by
  cases elements with
  | nil => cases h
  | cons element rest =>
      cases h with
      | called hdepth => exact hdepth
      | afterCalled hdepth _ _ => exact hdepth

/-- Below the limit no task starts anything. -/
theorem Task.Starts.depth_le {task other : Task} (h : task.Starts limit other) :
    task.depth ≤ limit := by
  cases task with
  | expr e scope depth =>
      cases h with
      | enter hdepth _ => exact hdepth
  | combine left right pos depth =>
      rw [Task.Starts, Task.plan_combine] at h
      cases hrule : ruleOf left right with
      | result result =>
          rw [hrule] at h
          cases result <;> cases h
      | call scope pattern body argument =>
          rw [hrule] at h
          cases h with
          | called hdepth => exact hdepth.le
          | afterCalled hdepth _ _ => exact hdepth.le
      | fold scope pattern body elements =>
          rw [hrule] at h
          exact (Plan.Starts.fold_depth_lt h).le

/-- A join that makes another is the fold of a function. -/
theorem Task.Starts.right_kind {left right left' right' : Value} {pos pos' : Position}
    {depth depth' : Nat}
    (h : (Task.combine left right pos depth).Starts limit (.combine left' right' pos' depth')) :
    right.kind = .function := by
  rw [Task.Starts, Task.plan_combine] at h
  cases hrule : ruleOf left right with
  | result result =>
      rw [hrule] at h
      cases result <;> cases h
  | call scope pattern body argument =>
      rw [hrule] at h
      cases h with
      | afterCalled _ _ hdone => cases hdone
  | fold scope pattern body elements =>
      unfold ruleOf at hrule
      split at hrule <;> first | rfl | cases hrule

theorem Task.Leads.depth_le {task other : Task} (h : task.Leads other) :
    task.depth ≤ other.depth := by
  cases task <;> cases other <;> simp only [Task.Leads, Task.depth] at h ⊢ <;> omega

/-- A step that stays on its level is one from join to join. -/
theorem Task.Leads.eq_combine {task other : Task} (h : task.Leads other)
    (hlevel : other.depth = task.depth) :
    ∃ left right pos depth left' right', task = .combine left right pos depth ∧
      other = .combine left' right' pos depth := by
  cases task <;> cases other <;> simp only [Task.Leads, Task.depth] at h hlevel
  case combine.combine =>
    rcases h with ⟨rfl, rfl⟩
    exact ⟨_, _, _, _, _, _, rfl, rfl⟩
  all_goals omega

/-! ## Endless descents -/

section Descent

variable {chain : ℕ → Task} (hchain : ∀ i, (chain i).Starts limit (chain (i + 1)))

include hchain

theorem depth_le_depth_add (i j : ℕ) : (chain i).depth ≤ (chain (i + j)).depth := by
  induction j with
  | zero => exact le_rfl
  | succ j ih => exact ih.trans (hchain (i + j)).leads.depth_le

/-- An endless descent goes on on one level from some task on, because every level
it reaches is within the limit. -/
theorem exists_level : ∃ n, ∀ i, (chain (n + i)).depth = (chain n).depth := by
  -- the levels that remain between the start of the descent and the limit
  obtain ⟨room, hroom⟩ : ∃ room, limit.toNat - (chain 0).depth = room := ⟨_, rfl⟩
  induction room using Nat.strong_induction_on generalizing chain with
  | _ room ih =>
      by_cases hconst : ∀ i, (chain i).depth = (chain 0).depth
      · exact ⟨0, fun i => by rw [Nat.zero_add]; exact hconst i⟩
      · push Not at hconst
        rcases hconst with ⟨i, hi⟩
        have hdown : (chain 0).depth ≤ (chain i).depth := by
          simpa using depth_le_depth_add hchain 0 i
        have hwithin := (hchain i).depth_le
        obtain ⟨n, hn⟩ := ih (limit.toNat - (chain i).depth) (by omega)
          (fun j => hchain (i + j)) rfl
        exact ⟨i + n, fun j => by rw [Nat.add_assoc]; exact hn j⟩

/-- From some task on, an endless descent consists of joins of folds, on one level
and on behalf of one expression. -/
theorem exists_joins : ∃ (n : ℕ) (left right : ℕ → Value) (pos : Position) (depth : ℕ),
    ∀ i, chain (n + i) = .combine (left i) (right i) pos depth := by
  obtain ⟨n, hlevel⟩ := exists_level hchain
  have hstep : ∀ i, (chain (n + (i + 1))).depth = (chain (n + i)).depth := by
    intro i
    rw [hlevel (i + 1), hlevel i]
  obtain ⟨left, right, pos, depth, -, -, hfirst, -⟩ := (hchain n).leads.eq_combine (hstep 0)
  have hjoin : ∀ i, ∃ left right, chain (n + i) = .combine left right pos depth := by
    intro i
    induction i with
    | zero => exact ⟨left, right, hfirst⟩
    | succ i ih =>
        rcases ih with ⟨left, right, hi⟩
        obtain ⟨_, _, pos', depth', left', right', htask, hother⟩ :=
          (hchain (n + i)).leads.eq_combine (hstep i)
        rw [hi] at htask
        injection htask with _ _ hpos hdepth
        subst hpos hdepth
        exact ⟨left', right', hother⟩
  choose left right hjoin using hjoin
  exact ⟨n, left, right, pos, depth, hjoin⟩

end Descent

/-- Somewhere in the work on the task, folding begins to go on forever: the join of
two values makes another join on the same level, that one yet another, and so on.
Every one of these joins is itself the fold of a function. -/
def Task.FoldsForever (limit : Int) (task : Task) : Prop :=
  ∃ (left right : ℕ → Value) (pos : Position) (depth : ℕ),
    Relation.ReflTransGen (Task.Starts limit) task (.combine (left 0) (right 0) pos depth) ∧
    ∀ i, (right i).kind = .function ∧
      (Task.combine (left i) (right i) pos depth).Starts limit
        (.combine (left (i + 1)) (right (i + 1)) pos depth)

/-- All that keeps a task from returning is folding that goes on forever. -/
theorem Task.foldsForever_of_not_returns {task : Task} (h : ¬ task.Returns limit) :
    task.FoldsForever limit := by
  rw [Task.returns_iff_acc, not_acc_iff_exists_descending_chain] at h
  rcases h with ⟨chain, hzero, hchain⟩
  obtain ⟨n, left, right, pos, depth, hjoins⟩ := exists_joins hchain
  have hreach : ∀ i, Relation.ReflTransGen (Task.Starts limit) (chain 0) (chain i) := by
    intro i
    induction i with
    | zero => exact .refl
    | succ i ih => exact ih.tail (hchain i)
  refine ⟨left, right, pos, depth, ?_, fun i => ?_⟩
  · rw [← hjoins 0, ← hzero]
    exact hreach n
  · have hstarts := hchain (n + i)
    rw [hjoins i, Nat.add_assoc, hjoins (i + 1)] at hstarts
    exact ⟨hstarts.right_kind, hstarts⟩

theorem Task.not_returns_of_foldsForever {task : Task} (h : task.FoldsForever limit) :
    ¬ task.Returns limit := by
  rcases h with ⟨left, right, pos, depth, hreach, hjoins⟩
  rw [Task.returns_iff_acc]
  intro hacc
  -- whatever is reached from an accessible task is accessible
  have hreached : ∀ other, Relation.ReflTransGen (Task.Starts limit) task other →
      Acc (fun started starting => Task.Starts limit starting started) other := by
    intro other hother
    induction hother with
    | refl => exact hacc
    | tail _ hstarts ih => exact ih.inv hstarts
  refine not_acc_iff_exists_descending_chain.mpr ?_ (hreached _ hreach)
  exact ⟨fun i => .combine (left i) (right i) pos depth, rfl, fun i => (hjoins i).2⟩

end Eval

namespace Expr

open Eval

variable {limit : Int} {scope : Scope} {e : Expr}

theorem eval_eq_outOfFuel_iff :
    e.eval limit scope = .outOfFuel ↔ ¬ (Task.expr e scope 0).Returns limit := by
  constructor
  · rintro hout ⟨fuel, hfuel⟩
    rw [eval_of_ended (hfuel _)] at hout
    exact hfuel _ hout
  · intro hnever
    by_contra hended
    obtain ⟨fuel, hfuel⟩ := exists_run_of_eval hended
    rw [← hfuel] at hended
    exact hnever ⟨fuel, Task.run_ended_of_run_ended hended⟩

/-- Evaluation returns, with a value or with an error, under every limit and in every
scope, unless folding goes on forever on one level. -/
theorem eval_returns_iff (limit : Int) (scope : Scope) (e : Expr) :
    ((∃ v tally, e.eval limit scope = .value v tally) ∨
        ∃ error tally, e.eval limit scope = .failure error tally) ↔
      ¬ (Task.expr e scope 0).FoldsForever limit := by
  constructor
  · intro hreturns hforever
    have hout := eval_eq_outOfFuel_iff.mpr (Task.not_returns_of_foldsForever hforever)
    rw [hout] at hreturns
    rcases hreturns with ⟨_, _, hvalue⟩ | ⟨_, _, hfailure⟩
    · cases hvalue
    · cases hfailure
  · intro hfinite
    cases heval : e.eval limit scope with
    | value v tally => exact .inl ⟨v, tally, rfl⟩
    | failure error tally => exact .inr ⟨error, tally, rfl⟩
    | outOfFuel =>
        exact absurd (Task.foldsForever_of_not_returns (eval_eq_outOfFuel_iff.mp heval)) hfinite

/-! ## A program that folds forever

The function in this program maps the bit `0` to the sequence `01` and the bit `1`
to itself.  Folding it over `01` therefore joins `01` with the function again. -/

namespace Endless

/-- The program. -/
def source : Bytes :=
  utf8 "(g:\x6001\x60($ g($ g)))(f:x:\x7b\x600\x60=\x6001\x60;\x601\x60=$ f($ f)\x7d($ x))"

/-- A stretch of its only line. -/
def stretch (start stop : Nat) : Span := ⟨⟨start, 1, start + 1⟩, ⟨stop, 1, stop + 1⟩⟩

/-- The names that the program uses. -/
def f : BitSeq := ⟨8, [0x66]⟩
@[inherit_doc f] def g : BitSeq := ⟨8, [0x67]⟩
@[inherit_doc f] def x : BitSeq := ⟨8, [0x78]⟩

/-- The sequence that is folded over. -/
def zeroOne : BitSeq := ⟨2, [0x40]⟩

/-- What a name is bound to, looked up in the scope. -/
def lookUp (name : BitSeq) (start : Nat) : Expr :=
  .combine (stretch start (start + 3)) (.scope (stretch start (start + 1)))
    (.literal (stretch (start + 2) (start + 3)) name)

/-- What a name is bound to, applied to itself. -/
def selfApplied (name : BitSeq) (start : Nat) : Expr :=
  .combine (stretch start (start + 7)) (lookUp name start) (lookUp name (start + 4))

/-- The body of the function that is folded. -/
def body : Expr :=
  .combine (stretch 23 50)
    (.set (stretch 23 46)
      [(.literal (stretch 24 27) (.encode 0), .literal (stretch 28 32) zeroOne),
        (.literal (stretch 33 36) (.encode 1), selfApplied f 37)])
    (lookUp x 47)

/-- The expression that folds. -/
def folding : Expr :=
  .combine (stretch 3 15) (.literal (stretch 3 7) zeroOne) (selfApplied g 8)

/-- The function that makes the function that is folded. -/
def maker : Value :=
  .function .empty f (.function (stretch 21 50) (.literal (stretch 21 22) x) body)

/-- The function that is folded. -/
def folded : Value := .function (Bindings.empty.insert f maker) x body

/-- The tree of the program. -/
def tree : Expr :=
  .combine (stretch 1 50)
    (.function (stretch 1 15) (.literal (stretch 1 2) g) folding)
    (.function (stretch 19 50) (.literal (stretch 19 20) f)
      (.function (stretch 21 50) (.literal (stretch 21 22) x) body))

set_option maxRecDepth 4000 in
theorem parse_source : Expr.parse source = .ok tree := rfl

theorem yields_folded :
    (Task.expr (selfApplied g 8) (Bindings.empty.insert g maker) 3).Yields defaultLimit folded :=
  ⟨6, ⟨0, 0⟩, ⟨1, 6⟩, rfl⟩

/-- What the two bits are mapped to. -/
def images : Scope := (Bindings.empty.insert (.encode 0) (.bits zeroOne)).insert (.encode 1) folded

/-- The body makes a map and looks its argument up in it. -/
theorem yields_image {argument image : Value}
    (himage : ((Task.combine (.set images) argument ⟨23, 1, 24⟩ 5).run defaultLimit 7).run ⟨1, 9⟩ =
      .value image ⟨1, 9⟩) :
    (Task.expr body ((Bindings.empty.insert f maker).insert x argument) 4).Yields defaultLimit
      image := by
  let scope : Scope := (Bindings.empty.insert f maker).insert x argument
  have hmap : ((Task.expr (.set (stretch 23 46)
      [(.literal (stretch 24 27) (.encode 0), .literal (stretch 28 32) zeroOne),
        (.literal (stretch 33 36) (.encode 1), selfApplied f 37)]) scope 5).run
          defaultLimit 7).run ⟨0, 4⟩ =
      .value (.set images) ⟨1, 9⟩ := rfl
  have hargument : ((Task.expr (lookUp x 47) scope 5).run defaultLimit 7).run ⟨1, 9⟩ =
      .value argument ⟨1, 9⟩ := rfl
  refine ⟨8, ⟨0, 0⟩, ⟨1, 9⟩, ?_⟩
  refine (Task.run_combine (by decide) hmap).trans ?_
  exact Plan.run_chain hargument himage

theorem yields_zeroOne :
    (Task.expr body ((Bindings.empty.insert f maker).insert x (.nat 0)) 4).Yields defaultLimit
      (.bits zeroOne) :=
  yields_image rfl

theorem yields_itself :
    (Task.expr body ((Bindings.empty.insert f maker).insert x (.nat 1)) 4).Yields defaultLimit
      folded :=
  yields_image rfl

/-- Folding the function over `01` joins `01` with the function. -/
theorem starts_itself (pos : Position) :
    (Task.combine (.bits zeroOne) folded pos 3).Starts defaultLimit
      (.combine (.bits zeroOne) folded pos 3) :=
  .afterCalled (by decide) yields_zeroOne (.afterCalled (by decide) yields_itself .asked)

theorem foldsForever : (Task.expr tree .empty 0).FoldsForever defaultLimit := by
  refine ⟨fun _ => .bits zeroOne, fun _ => folded, ⟨3, 1, 4⟩, 3, ?_,
    fun _ => ⟨rfl, starts_itself _⟩⟩
  -- the opening function is called on the maker, and its body is the fold
  have hcall : (Task.expr tree .empty 0).Starts defaultLimit
      (.combine (.function .empty g folding) maker ⟨1, 1, 2⟩ 1) :=
    .enter (by decide) (.afterAsked ⟨2, ⟨0, 0⟩, ⟨0, 2⟩, rfl⟩
      (.afterAsked ⟨2, ⟨0, 0⟩, ⟨0, 2⟩, rfl⟩ .asked))
  have hbody : (Task.combine (.function .empty g folding) maker ⟨1, 1, 2⟩ 1).Starts defaultLimit
      (.expr folding (Bindings.empty.insert g maker) 2) :=
    .called (by decide)
  have hfold : (Task.expr folding (Bindings.empty.insert g maker) 2).Starts defaultLimit
      (.combine (.bits zeroOne) folded ⟨3, 1, 4⟩ 3) :=
    .enter (by decide) (.afterAsked ⟨1, ⟨0, 0⟩, ⟨0, 3⟩, rfl⟩
      (.afterAsked yields_folded .asked))
  exact ((Relation.ReflTransGen.single hcall).tail hbody).tail hfold

end Endless

/-- There is a program whose evaluation never returns under the default limit: it
folds on one level forever, and so never comes to the limit. -/
theorem eval_endless_source :
    ∃ e, Expr.parse Endless.source = .ok e ∧ e.eval defaultLimit .empty = .outOfFuel :=
  ⟨Endless.tree, Endless.parse_source,
    eval_eq_outOfFuel_iff.mpr (Task.not_returns_of_foldsForever Endless.foldsForever)⟩

end Expr

end BitLang
