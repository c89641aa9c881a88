/-
# Evaluation keeps to well-formed values

From a tree with canonical literals, under a well-formed scope, evaluation comes to
well-formed values only, and never to a combination that has no rule.

The argument is one of contracts: if the plan of every admissible task asks for
admissible tasks only, as long as their answers keep to the contract, then so does every
run.
-/

import BitLang.Proofs.Eval.Fuel
import BitLang.Proofs.Value.WellFormed

namespace BitLang

namespace Eval

/-! ## Contracts -/

/-- Which tasks are admissible, and what may be expected of the values and errors they
come to. -/
structure Contract where
  task : Task → Prop
  value : Value → Prop
  error : EvalError → Prop

/-- The outcome is as the contract has it. -/
def Contract.Admits (c : Contract) : Outcome Value → Prop
  | .value v _ => c.value v
  | .failure error _ => c.error error
  | .outOfFuel => True

/-- The plan asks for admissible tasks only and ends as the contract has it, as long as
all answers do. -/
inductive Plan.Keeps (c : Contract) : Plan → Prop
  | done {v : Value} : c.value v → Keeps c (.done v)
  | fail {pos : Position} {cause : EvalError.Cause} : c.error ⟨pos, cause⟩ →
      Keeps c (.fail pos cause)
  | enter {depth : Nat} {pos : Position} {rest : Plan} : (∀ limit, c.error ⟨pos, .tooDeep limit⟩) →
      Keeps c rest → Keeps c (.enter depth pos rest)
  | ask {task : Task} {next : Value → Plan} : c.task task →
      (∀ v, c.value v → Keeps c (next v)) → Keeps c (.ask task next)
  | call {depth : Nat} {pos : Position} {body : Expr} {scope : Scope} {next : Value → Plan} :
      (∀ limit, c.error ⟨pos, .tooDeep limit⟩) → c.task (.expr body scope (depth + 1)) →
      (∀ v, c.value v → Keeps c (next v)) → Keeps c (.call depth pos body scope next)

namespace Contract

variable {c : Contract}

theorem admits_bind {x : Eval Value} {f : Value → Eval Value} {tally : Tally}
    (hx : c.Admits (x.run tally)) (hf : ∀ v later, c.value v → c.Admits ((f v).run later)) :
    c.Admits ((x >>= f).run tally) := by
  rw [run_bind]
  cases h : x.run tally with
  | value v later =>
      rw [h] at hx
      exact hf v later hx
  | failure error later =>
      rw [h] at hx
      exact hx
  | outOfFuel => trivial

theorem admits_enter {limit : Int} {depth : Nat} {pos : Position} {x : Eval Value} {tally : Tally}
    (hpos : c.error ⟨pos, .tooDeep limit⟩) (hx : ∀ later, c.Admits (x.run later)) :
    c.Admits ((enter limit depth pos >>= fun _ => x).run tally) := by
  rw [run_bind]
  by_cases h : (depth : Int) ≤ limit
  · rw [run_enter_of_le h]
    exact hx _
  · rw [run_enter_of_lt (by omega)]
    exact hpos

theorem admits_call {limit : Int} {depth : Nat} {pos : Position} {x : Eval Value} {tally : Tally}
    (hpos : c.error ⟨pos, .tooDeep limit⟩) (hx : ∀ later, c.Admits (x.run later)) :
    c.Admits ((call limit depth pos >>= fun _ => x).run tally) := by
  rw [run_bind]
  by_cases h : (depth : Int) < limit
  · rw [run_call_of_lt h]
    exact hx _
  · rw [run_call_of_le (by omega)]
    exact hpos

theorem admits_follow {limit : Int} {carryOut : Task → Eval Value}
    (htasks : ∀ task tally, c.task task → c.Admits ((carryOut task).run tally)) {plan : Plan}
    (h : plan.Keeps c) (tally : Tally) : c.Admits ((plan.follow limit carryOut).run tally) := by
  induction h generalizing tally with
  | done hvalue => exact hvalue
  | fail herror => exact herror
  | enter hpos _ ih => exact admits_enter (hpos limit) ih
  | ask htask _ ih => exact admits_bind (htasks _ tally htask) fun v later hv => ih v hv later
  | call hpos htask _ ih =>
      refine admits_call (hpos limit) fun later => ?_
      exact admits_bind (htasks _ later htask) fun v later hv => ih v hv later

/-- If the plans of admissible tasks keep the contract, so do all their runs. -/
theorem admits_run (hplan : ∀ task, c.task task → task.plan.Keeps c) (limit : Int) (fuel : Nat)
    {task : Task} (htask : c.task task) (tally : Tally) :
    c.Admits ((task.run limit fuel).run tally) := by
  induction fuel generalizing task tally with
  | zero =>
      rw [Task.run_zero]
      trivial
  | succ fuel ih =>
      rw [Task.run_succ]
      exact admits_follow (fun task tally h => ih h tally) (hplan task htask) tally

end Contract

/-! ## The rules -/

/-- The cause is not that there is no rule. -/
def Applicable (cause : EvalError.Cause) : Prop := cause.class ≠ .unsupportedCombination

theorem applicable_tooDeep (limit : Int) : Applicable (.tooDeep limit) := by
  simp [Applicable, EvalError.Cause.class]

theorem applicable_keyNotBits (kind : Kind) : Applicable (.keyNotBits kind) := by
  simp [Applicable, EvalError.Cause.class]

theorem applicable_patternNotBits (kind : Kind) : Applicable (.patternNotBits kind) := by
  simp [Applicable, EvalError.Cause.class]

/-- The task is about canonical trees, well-formed values and well-formed scopes. -/
def Task.WellFormed (W : Scope → Prop) : Task → Prop
  | .expr e scope _ => e.Canonical ∧ scope.IsScope W
  | .combine left right _ _ => left.MadeOf W ∧ right.MadeOf W

/-- Well-formed tasks come to well-formed values, or to errors other than that there is
no rule. -/
def soundness (W : Scope → Prop) : Contract where
  task := Task.WellFormed W
  value := Value.MadeOf W
  error error := Applicable error.cause

/-- A rule for well-formed values. -/
inductive Rule.WellFormed (W : Scope → Prop) : Rule → Prop
  | value {v : Value} : v.MadeOf W → WellFormed W (.result (.ok v))
  | error {cause : EvalError.Cause} : Applicable cause → WellFormed W (.result (.error cause))
  | call {scope : Scope} {pattern : BitSeq} {body : Expr} {argument : Value} : scope.IsScope W →
      pattern.Canonical → body.Canonical → argument.MadeOf W →
      WellFormed W (.call scope pattern body argument)
  | fold {scope : Scope} {pattern : BitSeq} {body : Expr} {elements : List Value} :
      scope.IsScope W → pattern.Canonical → body.Canonical → (∀ v ∈ elements, v.MadeOf W) →
      WellFormed W (.fold scope pattern body elements)

variable {W : Scope → Prop}

theorem applicable_of_boundOf {range : Scope} {i : Nat} {cause : EvalError.Cause}
    (h : boundOf range i = .error cause) : Applicable cause := by
  unfold boundOf at h
  split at h <;> cases h <;> simp [Applicable, EvalError.Cause.class]

theorem wellFormed_sliceOf (b : BitSeq) (range : Scope) :
    (Rule.result (sliceOf b range)).WellFormed W := by
  unfold sliceOf
  cases hstart : boundOf range 0 with
  | error cause => exact .error (applicable_of_boundOf hstart)
  | ok start =>
      cases hstop : boundOf range 1 with
      | error cause => exact .error (applicable_of_boundOf hstop)
      | ok stop =>
          show (Rule.result (if stop < start ∨ b.len < stop then _ else _)).WellFormed W
          split
          · exact .error (by simp [Applicable, EvalError.Cause.class])
          · exact .value (.bits (BitSeq.canonical_slice b start stop))

theorem madeOf_keysOf (hW : Bindings.Kept W) {s : Scope} (hs : s.IsScope W) :
    (keysOf s).MadeOf W := by
  refine Value.madeOf_set_iff.mpr ((Bindings.sound_empty hW _).insertAll hW ?_)
  intro entry hmem
  obtain ⟨⟨key, i⟩, hkey, rfl⟩ := List.mem_map.mp hmem
  have hmem : key ∈ s.keys := (List.mem_zipIdx hkey).2.2 ▸ List.getElem_mem _
  exact ⟨BitSeq.canonical_encode i, .bits (hs.of_mem_keys hmem)⟩

/-- Any two well-formed values have a rule. -/
theorem wellFormed_ruleOf (hW : Bindings.Kept W) {left right : Value} (hleft : left.MadeOf W)
    (hright : right.MadeOf W) : (ruleOf left right).WellFormed W := by
  cases left with
  | absent => cases hleft
  | null => exact .value (Value.madeOf_nat _)
  | function scope pattern body =>
      obtain ⟨hscope, hpattern, hbody⟩ := Value.madeOf_function_iff.mp hleft
      exact .call hscope hpattern hbody hright
  | bits a =>
      cases right with
      | absent => cases hright
      | null => exact .value (Value.madeOf_nat _)
      | bits b =>
          have ha := Value.madeOf_bits_iff.mp hleft
          exact .value (.bits (ha.append (Value.madeOf_bits_iff.mp hright)))
      | set range => exact wellFormed_sliceOf a range
      | function scope pattern body =>
          obtain ⟨hscope, hpattern, hbody⟩ := Value.madeOf_function_iff.mp hright
          refine .fold hscope hpattern hbody fun v hmem => ?_
          obtain ⟨bit, -, rfl⟩ := List.mem_map.mp hmem
          exact Value.madeOf_nat _
  | set a =>
      have ha := Value.madeOf_set_iff.mp hleft
      cases right with
      | absent => cases hright
      | null => exact .value (madeOf_keysOf hW ha)
      | bits b =>
          refine .value ?_
          cases h : a.get? b with
          | none => exact .null
          | some v => exact ha.of_get? h
      | set b => exact .value (Value.madeOf_set_iff.mpr
          (ha.merge hW (Value.madeOf_set_iff.mp hright)))
      | function scope pattern body =>
          obtain ⟨hscope, hpattern, hbody⟩ := Value.madeOf_function_iff.mp hright
          exact .fold hscope hpattern hbody fun v hmem => ha.of_mem_values hmem

/-! ## The plans -/

namespace Plan

theorem keeps_entries (hW : Bindings.Kept W) {scope bound : Scope} (hscope : scope.IsScope W)
    (hbound : bound.IsScope W) (depth : Nat) {es : List (Expr × Expr)}
    (h : Expr.AllEntries Expr.LiteralCanonical es) :
    (entries scope depth bound es).Keeps (soundness W) := by
  induction es generalizing bound with
  | nil => exact .done (Value.madeOf_set_iff.mpr hbound)
  | cons entry rest ih =>
      rcases entry with ⟨key, value⟩
      refine .ask ⟨h.1, hscope⟩ fun k hk => ?_
      cases hk with
      | bits hb =>
          refine .ask ⟨h.2.1, hscope⟩ fun v hv => ?_
          exact ih (hbound.insert hW hb hv) h.2.2
      | _ => exact .fail (applicable_keyNotBits _)

theorem keeps_chain {scope : Scope} (hscope : scope.IsScope W) (depth : Nat) {left : Value}
    (hleft : left.MadeOf W) {operands : List (Span × Expr)}
    (h : ∀ operand ∈ operands, operand.2.Canonical) :
    (chain scope depth left operands).Keeps (soundness W) := by
  induction operands generalizing left with
  | nil => exact .done hleft
  | cons operand rest ih =>
      obtain ⟨hoperand, hrest⟩ := List.forall_mem_cons.mp h
      refine .ask ⟨hoperand, hscope⟩ fun right hright => ?_
      exact .ask ⟨hleft, hright⟩ fun joined hjoined => ih hjoined hrest

/-- A fold starts with the absent value in place of a result, which no task gets to
see. -/
theorem keeps_fold (hW : Bindings.Kept W) {scope : Scope} {pattern : BitSeq} {body : Expr}
    (hscope : scope.IsScope W) (hpattern : pattern.Canonical) (hbody : body.Canonical)
    (pos : Position) (depth : Nat) {joined : Value}
    (hjoined : joined = .absent ∨ joined.MadeOf W) {elements : List Value}
    (h : ∀ v ∈ elements, v.MadeOf W) :
    (fold scope pattern body pos depth joined elements).Keeps (soundness W) := by
  induction elements generalizing joined with
  | nil =>
      rcases hjoined with rfl | hjoined
      · exact .done .null
      · simp only [fold, hjoined.isAbsent_eq_false]
        exact .done hjoined
  | cons element rest ih =>
      obtain ⟨helement, hrest⟩ := List.forall_mem_cons.mp h
      refine .call applicable_tooDeep ⟨hbody, hscope.insert hW hpattern helement⟩ fun v hv => ?_
      rcases hjoined with rfl | hjoined
      · exact ih (.inr hv) hrest
      · simp only [hjoined.isAbsent_eq_false]
        exact .ask ⟨hjoined, hv⟩ fun w hw => ih (.inr hw) hrest

theorem keeps_ofRule (hW : Bindings.Kept W) {rule : Rule} (h : rule.WellFormed W)
    (pos : Position) (depth : Nat) : (ofRule pos depth rule).Keeps (soundness W) := by
  cases h with
  | value hv => exact .done hv
  | error hcause => exact .fail hcause
  | call hscope hpattern hbody hargument =>
      exact .call applicable_tooDeep ⟨hbody, hscope.insert hW hpattern hargument⟩
        fun v hv => .done hv
  | fold hscope hpattern hbody helements =>
      exact keeps_fold hW hscope hpattern hbody pos depth (.inl rfl) helements

end Plan

/-- The plan of a well-formed task keeps the contract. -/
theorem Task.keeps_plan (hW : Bindings.Kept W) (task : Task) (h : task.WellFormed W) :
    task.plan.Keeps (soundness W) := by
  cases task with
  | combine left right pos depth =>
      rw [Task.plan_combine]
      exact Plan.keeps_ofRule hW (wellFormed_ruleOf hW h.1 h.2) pos depth
  | expr e scope depth =>
      rcases h with ⟨he, hscope⟩
      refine .enter applicable_tooDeep ?_
      cases e with
      | absent => exact .done .null
      | literal span b => exact .done (.bits he)
      | scope span => exact .done (Value.madeOf_set_iff.mpr hscope)
      | set span es =>
          exact Plan.keeps_entries hW hscope (Bindings.sound_empty hW _) (depth + 1) he.2
      | function span pattern body =>
          refine .ask ⟨he.2.1, hscope⟩ fun p hp => ?_
          cases hp with
          | bits hb => exact .done (Value.madeOf_function_iff.mpr ⟨hscope, hb, he.2.2⟩)
          | _ => exact .fail (applicable_patternNotBits _)
      | combine span left right =>
          have hothers : ∀ operand ∈ [(span, right)], operand.2.Canonical :=
            List.forall_mem_singleton.mpr he.2.2
          have hspine := Expr.Canonical.spine he.2.1 hothers
          refine .ask ⟨hspine.1, hscope⟩ fun first hfirst => ?_
          exact Plan.keeps_chain hscope (depth + 1) hfirst hspine.2

end Eval

open Eval

/-- Evaluation under a well-formed scope comes to well-formed values only, and to no
error that says there is no rule. -/
theorem Expr.admits_eval {W : Scope → Prop} (hW : Bindings.Kept W) {e : Expr} (he : e.Canonical)
    {scope : Scope} (hscope : scope.IsScope W) (limit : Int) :
    (soundness W).Admits (e.eval limit scope) := by
  by_cases h : e.eval limit scope = .outOfFuel
  · rw [h]
    trivial
  · obtain ⟨fuel, hfuel⟩ := exists_run_of_eval h
    rw [← hfuel]
    have htask : (soundness W).task (.expr e scope 0) := ⟨he, hscope⟩
    exact Contract.admits_run (Task.keeps_plan hW) limit fuel htask ⟨0, 0⟩

end BitLang
