/-
# Chains, one operand after another

The evaluator takes a chain of operands apart and works through them in a loop, so that the
length of a chain costs no levels.  This module compares it with an evaluator that has no such
loop: for two operands side by side it evaluates the left one, then the right one, and combines
their values.  All that is left of chains there is the level of the left operand, which is that
of the whole if it is a combination itself and the next one if it is not.

Both evaluators settle on the same outcome for every expression, at every level and after any
work done before.  Their plans state equations with the same solutions, because a loop over a
chain can be cut in front of its last operand (`loop_combine`), and the level of a chain on the
left has been entered already.
-/

import BitLang.Proofs.Eval.Settled

namespace BitLang

namespace Expr

/-- The expression is two operands side by side. -/
def isCombine : Expr → Bool
  | combine _ _ _ => true
  | _ => false

theorem spine_of_not_isCombine {e : Expr} (h : e.isCombine = false) (others : List (Span × Expr)) :
    e.spine others = (e, others) := by
  cases e <;> first | rfl | cases h

/-- The operands that were taken off a chain before are left as they are. -/
theorem spine_append : (e : Expr) → (others more : List (Span × Expr)) →
    e.spine (others ++ more) = ((e.spine others).1, (e.spine others).2 ++ more)
  | combine span left right, others, more => left.spine_append ((span, right) :: others) more
  | absent, _, _ | literal _ _, _, _ | scope _, _, _ | set _ _, _, _ | function _ _ _, _, _ => rfl

end Expr

namespace Eval

variable {limit : Int}

/-! ## A loop and its last turn -/

theorem chain_append (eval : Expr → Eval Value) (join : Position → Value → Value → Eval Value)
    (left : Value) (operands more : List (Span × Expr)) :
    chain eval join left (operands ++ more) =
      chain eval join left operands >>= fun left => chain eval join left more := by
  induction operands generalizing left with
  | nil => rfl
  | cons operand rest ih => simp only [List.cons_append, chain, ih, bind_assoc]

/-- Entering a level twice is no more than entering it once. -/
theorem enter_enter (limit : Int) (depth : Nat) (pos again : Position) {α : Type} (x : Eval α) :
    (enter limit depth pos >>= fun _ => enter limit depth again >>= fun _ => x) =
      enter limit depth pos >>= fun _ => x := by
  refine ext fun tally => ?_
  rw [run_bind, run_bind]
  by_cases hdepth : (depth : Int) ≤ limit
  · rw [run_enter_of_le hdepth]
    show (enter limit depth again >>= fun _ => x).run _ = x.run _
    rw [run_bind, run_enter_of_le hdepth]
    simp only [Nat.max_assoc, Nat.max_self]
  · rw [run_enter_of_lt (by omega)]

section Loop

variable (carryOut : Task → Eval Value) (scope : Scope) (depth : Nat)

/-- The loop over the operands of a chain, all on one level. -/
def loop (e : Expr) : Eval Value := do
  let first ← carryOut (.expr (e.spine []).1 scope depth)
  chain (fun e => carryOut (.expr e scope depth)) (fun pos a b => carryOut (.combine a b pos depth))
    first (e.spine []).2

theorem loop_of_not_isCombine {e : Expr} (h : e.isCombine = false) :
    loop carryOut scope depth e = carryOut (.expr e scope depth) := by
  rw [loop, Expr.spine_of_not_isCombine h]
  exact bind_pure _

/-- The last turn of the loop evaluates the last operand and combines it with what the turns
before came to. -/
theorem loop_combine (span : Span) (left right : Expr) :
    loop carryOut scope depth (.combine span left right) =
      loop carryOut scope depth left >>= fun a =>
        carryOut (.expr right scope depth) >>= fun b =>
          carryOut (.combine a b span.start depth) := by
  have hspine : (Expr.combine span left right).spine [] = left.spine ([] ++ [(span, right)]) := rfl
  rw [loop, hspine, Expr.spine_append]
  simp only [chain_append, loop, bind_assoc, chain, bind_pure]

theorem follow_plan_combine (limit : Int) (span : Span) (left right : Expr) :
    (Task.expr (.combine span left right) scope depth).plan.follow limit carryOut =
      enter limit depth span.start >>= fun _ =>
        loop carryOut scope (depth + 1) (.combine span left right) := by
  simp only [Task.plan, Plan.follow, follow_chain]
  rfl

end Loop

/-! ## Chains by recursion -/

/-- The plan of the evaluator that does not know chains: for two operands side by side it asks
for the value of the left one, on the same level if that is a combination itself, then for the
value of the right one, and then combines the two.  All else is as planned before. -/
def Task.plainPlan : Task → Plan
  | .expr (.combine span left right) scope depth =>
    .enter depth span.start <|
      .ask (.expr left scope (if left.isCombine then depth else depth + 1)) fun a =>
        .ask (.expr right scope (depth + 1)) fun b =>
          .ask (.combine a b span.start (depth + 1)) .done
  | task => task.plan

/-- The two plans of a combination come to the same for a way of carrying out tasks that loops
over a combination on the left. -/
theorem follow_plainPlan_combine {carryOut : Task → Eval Value} (span : Span) (left right : Expr)
    (scope : Scope) (depth : Nat)
    (hleft : left.isCombine = true → carryOut (.expr left scope depth) =
      (Task.expr left scope depth).plan.follow limit carryOut) :
    (Task.expr (.combine span left right) scope depth).plainPlan.follow limit carryOut =
      (Task.expr (.combine span left right) scope depth).plan.follow limit carryOut := by
  rw [follow_plan_combine, loop_combine]
  cases hcombine : left.isCombine with
  | false =>
      rw [loop_of_not_isCombine _ _ _ hcombine]
      simp only [Task.plainPlan, Plan.follow, hcombine, Bool.false_eq_true, if_false, bind_pure]
  | true =>
      -- the level of the combination on the left has been entered already
      cases left with
      | combine inner first second =>
          have hsame := hleft rfl
          rw [follow_plan_combine] at hsame
          simp only [Task.plainPlan, Plan.follow, hcombine, if_true, bind_pure, hsame, bind_assoc,
            enter_enter]
      | _ => cases hcombine

/-- The two plans of a task come to the same for every way of carrying out tasks that follows
the plans with the loop. -/
theorem follow_plainPlan {carryOut : Task → Eval Value}
    (h : ∀ task, carryOut task = task.plan.follow limit carryOut) (task : Task) :
    task.plainPlan.follow limit carryOut = task.plan.follow limit carryOut := by
  cases task with
  | expr e scope depth =>
      cases e with
      | combine span left right => exact follow_plainPlan_combine _ _ _ _ _ fun _ => h _
      | _ => rfl
  | combine left right pos depth => rfl

/-- A way of carrying out tasks that follows the plans without the loop follows those with the
loop, by induction on the chain. -/
theorem follow_plan_of_plain {carryOut : Task → Eval Value}
    (h : ∀ task, carryOut task = task.plainPlan.follow limit carryOut) :
    (e : Expr) → (scope : Scope) → (depth : Nat) →
      carryOut (.expr e scope depth) = (Task.expr e scope depth).plan.follow limit carryOut
  | .combine span left right, scope, depth => by
    rw [h, follow_plainPlan_combine]
    exact fun _ => follow_plan_of_plain h left scope depth
  | .absent, _, _ | .literal _ _, _, _ | .scope _, _, _ | .set _ _, _, _ | .function _ _ _, _, _ =>
    h _

theorem settled_plainPlan (limit : Int) :
    settled Task.plan limit = settled Task.plainPlan limit := by
  refine settled_eq_of_solves (fun task => ?_) (fun task => ?_)
  · rw [follow_plainPlan (settled_eq_follow Task.plan limit), ← settled_eq_follow]
  · cases task with
    | expr e scope depth =>
        exact follow_plan_of_plain (settled_eq_follow Task.plainPlan limit) e scope depth
    | combine left right pos depth => exact settled_eq_follow Task.plainPlan limit _

/-! ## How deep a chain goes -/

/-- Whatever work was done before, the evaluation comes to a value with the property and reaches
no level below the bound. -/
def StaysWithin (P : Value → Prop) (bound : Nat) (x : Eval Value) : Prop :=
  ∀ tally, ∃ v later, x.run tally = .value v later ∧ P v ∧ later.deepest ≤ max tally.deepest bound

theorem StaysWithin.bind {P Q : Value → Prop} {bound : Nat} {x : Eval Value}
    {f : Value → Eval Value} (hx : StaysWithin P bound x)
    (hf : ∀ v, P v → StaysWithin Q bound (f v)) : StaysWithin Q bound (x >>= f) := by
  intro tally
  obtain ⟨v, mid, hrun, hv, hmid⟩ := hx tally
  obtain ⟨w, later, hnext, hw, hlater⟩ := hf v hv mid
  refine ⟨w, later, ?_, hw, by omega⟩
  rw [run_bind, hrun]
  exact hnext

/-- A loop stays within a bound if all its operands and all its combinations do. -/
theorem StaysWithin.chain {P : Value → Prop} {bound : Nat} {eval : Expr → Eval Value}
    {join : Position → Value → Value → Eval Value} {operands : List (Span × Expr)}
    (heval : ∀ operand ∈ operands, StaysWithin P bound (eval operand.2))
    (hjoin : ∀ pos a b, P a → P b → StaysWithin P bound (join pos a b)) {left : Value}
    (hleft : P left) : StaysWithin P bound (chain eval join left operands) := by
  induction operands generalizing left with
  | nil => exact fun tally => ⟨left, tally, rfl, hleft, Nat.le_max_left ..⟩
  | cons operand rest ih =>
      refine (heval operand List.mem_cons_self).bind fun right hright => ?_
      exact (hjoin operand.1.start left right hleft hright).bind fun joined hjoined =>
        ih (fun other hother => heval other (List.mem_cons_of_mem operand hother)) hjoined

/-- A level that can be entered and lies within the bound is no obstacle. -/
theorem StaysWithin.enter {P : Value → Prop} {bound depth : Nat} {x : Eval Value}
    (h : StaysWithin P bound x) (hlimit : (depth : Int) ≤ limit) (hbound : depth ≤ bound)
    (pos : Position) : StaysWithin P bound (enter limit depth pos >>= fun _ => x) := by
  intro tally
  obtain ⟨v, later, hrun, hv, hlater⟩ := h { tally with deepest := max tally.deepest depth }
  refine ⟨v, later, ?_, hv, ?_⟩
  · rw [run_bind, run_enter_of_le hlimit]
    exact hrun
  · dsimp only at hlater
    omega

/-- An expression that comes to a value has entered its level. -/
theorem StaysWithin.le_limit {P : Value → Prop} {bound : Nat} {e : Expr} {scope : Scope}
    {depth : Nat} (h : StaysWithin P bound (settled Task.plan limit (.expr e scope depth))) :
    (depth : Int) ≤ limit := by
  obtain ⟨v, later, hrun, -⟩ := h ⟨0, 0⟩
  obtain ⟨rest, hplan⟩ : ∃ rest, (Task.expr e scope depth).plan = .enter depth e.pos rest :=
    ⟨_, rfl⟩
  by_contra hdepth
  rw [settled_eq_follow, hplan, Plan.follow, run_bind, run_enter_of_lt (by omega)] at hrun
  cases hrun

end Eval

open Eval

/-- What the evaluator that does not know chains makes of an expression on a level. -/
def Expr.evalPlainAt (limit : Int) (scope : Scope) (depth : Nat) (e : Expr) : Eval Value :=
  settled Task.plainPlan limit (.expr e scope depth)

namespace Expr

/-- The operands of a chain, in order. -/
def operands (e : Expr) : List Expr := (e.spine []).1 :: (e.spine []).2.map Prod.snd

theorem evalAt_combine (limit : Int) (scope : Scope) (depth : Nat) (span : Span)
    (left right : Expr) :
    (combine span left right).evalAt limit scope depth =
      enter limit depth span.start >>= fun _ =>
        loop (settled Task.plan limit) scope (depth + 1) (combine span left right) := by
  rw [evalAt_eq_settled, settled_eq_follow, follow_plan_combine]

/-- The loop over chains and plain recursion come to the same outcome, value or error, with the
same work counted, for every expression on every level and under every limit.  A chain reaches
no level but its own and those that its operands, each one level further down, and their
combinations reach, however many operands there are. -/
theorem evalAt_eq_plain (limit : Int) (scope : Scope) (depth : Nat) (e : Expr) :
    e.evalAt limit scope depth = e.evalPlainAt limit scope depth ∧
    ∀ (P : Value → Prop) (bound : Nat), e.isCombine = true → depth ≤ bound →
      (∀ operand ∈ e.operands, StaysWithin P bound (operand.evalAt limit scope (depth + 1))) →
      (∀ pos a b, P a → P b → StaysWithin P bound (a.combineAt limit pos (depth + 1) b)) →
      StaysWithin P bound (e.evalAt limit scope depth) := by
  refine ⟨by rw [evalAt_eq_settled, settled_plainPlan, evalPlainAt], ?_⟩
  intro P bound hcombine hbound hoperands hjoin
  simp only [evalAt_eq_settled, Value.combineAt_eq_settled] at hoperands hjoin
  have hhead := hoperands _ List.mem_cons_self
  have hothers : ∀ operand ∈ (e.spine []).2,
      StaysWithin P bound (settled Task.plan limit (.expr operand.2 scope (depth + 1))) :=
    fun operand hoperand =>
      hoperands _ (List.mem_cons_of_mem _ (List.mem_map_of_mem hoperand))
  have hloop : StaysWithin P bound (loop (settled Task.plan limit) scope (depth + 1) e) :=
    hhead.bind fun first hfirst => StaysWithin.chain hothers hjoin hfirst
  have hlimit := hhead.le_limit
  cases e with
  | combine span left right =>
      rw [evalAt_combine]
      exact hloop.enter (by omega) hbound span.start
  | _ => cases hcombine

/-- Three literals side by side. -/
def threeBits : Expr :=
  let nowhere : Span := ⟨.none, .none⟩
  let set : Expr := .literal nowhere ⟨1, [0x80]⟩
  let clear : Expr := .literal nowhere ⟨1, [0x00]⟩
  .combine nowhere (.combine nowhere set clear) set

/-- Three literals need one level below their own, as two do. -/
theorem evalAt_threeBits :
    threeBits.evalAt 1 .empty 0 = threeBits.evalPlainAt 1 .empty 0 ∧ threeBits.isCombine = true ∧
      StaysWithin (fun v => ∃ b, v = .bits b) 1 (threeBits.evalAt 1 .empty 0) := by
  obtain ⟨hplain, hbound⟩ := evalAt_eq_plain 1 .empty 0 threeBits
  refine ⟨hplain, rfl, hbound _ 1 rfl (Nat.zero_le 1) ?_ ?_⟩
  · intro operand hoperand
    obtain ⟨span, b, rfl⟩ : ∃ span b, operand = .literal span b := by
      simp only [threeBits, operands, spine, List.map_cons, List.map_nil, List.mem_cons,
        List.not_mem_nil, or_false] at hoperand
      rcases hoperand with rfl | rfl | rfl <;> exact ⟨_, _, rfl⟩
    have hlevel : ((0 + 1 : Nat) : Int) ≤ 1 := by decide
    rw [evalAt_eq_settled, settled_eq_follow]
    exact StaysWithin.enter (fun tally => ⟨.bits b, tally, rfl, ⟨b, rfl⟩, Nat.le_max_left ..⟩)
      hlevel (Nat.le_refl 1) span.start
  · rintro pos a b ⟨a, rfl⟩ ⟨b, rfl⟩
    rw [Value.combineAt_eq_settled, settled_eq_follow]
    exact fun tally => ⟨.bits (a ++ b), tally, rfl, ⟨a ++ b, rfl⟩, Nat.le_max_left ..⟩

end Expr

end BitLang
