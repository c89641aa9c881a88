/-
# Evaluation does not look at spans

Erasing the spans of a tree and of the values in its scope, and evaluating then,
comes to the same as evaluating first and erasing afterwards.  Positions are only
carried along: they end up in the error, beside its cause, and in the bodies of the
functions in the result.

Values flow from one task to the next, so the statement is proved for plans: a plan
erases to another if both take the same steps, and each answer leads on to plans that
again erase, whatever value the answer is.
-/

import BitLang.Proofs.Eval.Fuel
import BitLang.Proofs.Value.Spans

namespace BitLang

namespace Outcome

/-- The outcome with the spans in its value, or the position of its error, erased. -/
def eraseSpans : Outcome Value → Outcome Value
  | value v tally => value v.eraseSpans tally
  | failure error tally => failure ⟨.none, error.cause⟩ tally
  | outOfFuel => outOfFuel

/-- Two evaluations end alike up to spans: with values that agree up to spans, or with
errors of the same class and the same detail, and in both cases with the same work
done; or neither of them ends. -/
inductive AlikeUpToSpans : Outcome Value → Outcome Value → Prop
  | value {v w : Value} {tally : Tally} : v.eraseSpans = w.eraseSpans →
      AlikeUpToSpans (.value v tally) (.value w tally)
  | failure {first second : EvalError} {tally : Tally} :
      first.cause.class = second.cause.class → first.cause.detail = second.cause.detail →
      AlikeUpToSpans (.failure first tally) (.failure second tally)
  | outOfFuel : AlikeUpToSpans .outOfFuel .outOfFuel

theorem alikeUpToSpans_of_eraseSpans_eq {first second : Outcome Value}
    (h : first.eraseSpans = second.eraseSpans) : first.AlikeUpToSpans second := by
  cases first <;> cases second <;>
    simp only [eraseSpans, value.injEq, failure.injEq, EvalError.mk.injEq, true_and, reduceCtorEq]
      at h
  case value v tally w later =>
      rcases h with ⟨hvalue, rfl⟩
      exact .value hvalue
  case failure error tally other later =>
      rcases h with ⟨hcause, rfl⟩
      exact .failure (by rw [hcause]) (by rw [hcause])
  case outOfFuel => exact .outOfFuel

theorem eraseSpans_eq_outOfFuel {outcome : Outcome Value} :
    outcome.eraseSpans = .outOfFuel ↔ outcome = .outOfFuel := by
  cases outcome <;> simp only [eraseSpans, reduceCtorEq]

end Outcome

namespace Eval

/-! ## The rules -/

theorem boundOf_eraseSpans (range : Scope) (i : Nat) :
    boundOf range.eraseSpans i = boundOf range i := by
  unfold boundOf Bindings.eraseSpans
  rw [Bindings.get?_map]
  cases range.get? (.encode i) with
  | none => rfl
  | some v =>
      cases v with
      | set s =>
          simp only [Option.map_some, Value.eraseSpans_set]
          rfl
      | function scope pattern body =>
          simp only [Option.map_some, Value.eraseSpans_function]
          rfl
      | _ => rfl

theorem sliceOf_eraseSpans (b : BitSeq) (range : Scope) :
    sliceOf b range.eraseSpans = (sliceOf b range).map Value.eraseSpans := by
  unfold sliceOf
  rw [boundOf_eraseSpans, boundOf_eraseSpans]
  cases boundOf range 0 with
  | error cause => rfl
  | ok start =>
      cases boundOf range 1 with
      | error cause => rfl
      | ok stop =>
          show (if stop < start ∨ b.len < stop then _ else _) =
            Except.map Value.eraseSpans (if stop < start ∨ b.len < stop then _ else _)
          split <;> rfl

theorem keysOf_eraseSpans (s : Scope) : keysOf s.eraseSpans = (keysOf s).eraseSpans := by
  unfold keysOf
  rw [Value.eraseSpans_set, Bindings.eraseSpans, Bindings.eraseSpans, Bindings.keys_map,
    Bindings.map_ofList, List.map_map]
  rfl

/-- The rule with the spans in its values and its body erased. -/
def Rule.eraseSpans : Rule → Rule
  | result r => result (r.map Value.eraseSpans)
  | call scope pattern body argument =>
    call scope.eraseSpans pattern body.eraseSpans argument.eraseSpans
  | fold scope pattern body elements =>
    fold scope.eraseSpans pattern body.eraseSpans (elements.map Value.eraseSpans)

theorem getD_get?_eraseSpans (s : Scope) (key : BitSeq) :
    (s.eraseSpans.get? key).getD .null = ((s.get? key).getD .null).eraseSpans := by
  rw [Bindings.eraseSpans, Bindings.get?_map]
  cases s.get? key <;> rfl

theorem ruleOf_eraseSpans (left right : Value) :
    ruleOf left.eraseSpans right.eraseSpans = (ruleOf left right).eraseSpans := by
  cases left with
  | absent =>
      cases right with
      | set s => rw [Value.eraseSpans_set]; rfl
      | function scope pattern body => rw [Value.eraseSpans_function]; rfl
      | _ => rfl
  | null =>
      show Rule.result (.ok (.nat right.eraseSpans.kind.code)) = _
      rw [Value.kind_eraseSpans]
      rfl
  | bits a =>
      cases right with
      | absent | null | bits => rfl
      | set range =>
          rw [Value.eraseSpans_set]
          exact congrArg Rule.result (sliceOf_eraseSpans a range)
      | function scope pattern body =>
          rw [Value.eraseSpans_function]
          simp only [Value.eraseSpans, ruleOf, Rule.eraseSpans, List.map_map]
          rfl
  | set a =>
      rw [Value.eraseSpans_set]
      cases right with
      | absent => rfl
      | null => exact congrArg (fun v => Rule.result (.ok v)) (keysOf_eraseSpans a)
      | bits b => exact congrArg (fun v => Rule.result (.ok v)) (getD_get?_eraseSpans a b)
      | set b =>
          simp only [Value.eraseSpans_set, ruleOf, Rule.eraseSpans, Except.map,
            Bindings.eraseSpans, Bindings.map_merge]
      | function scope pattern body =>
          simp only [Value.eraseSpans_function, ruleOf, Rule.eraseSpans]
          exact congrArg (Rule.fold _ _ _) (Bindings.values_map Value.eraseSpans a)
  | function scope pattern body => rw [Value.eraseSpans_function]; rfl

/-! ## Plans -/

/-- The task with the spans in its expression, its values and its scope erased. -/
def Task.eraseSpans : Task → Task
  | expr e scope depth => expr e.eraseSpans scope.eraseSpans depth
  | combine left right _ depth => combine left.eraseSpans right.eraseSpans .none depth

/-- The second plan is the first with all spans erased, and goes on as such after
every answer. -/
inductive Plan.Erases : Plan → Plan → Prop
  | done (v : Value) : Erases (.done v) (.done v.eraseSpans)
  | fail (pos : Position) (cause : EvalError.Cause) : Erases (.fail pos cause) (.fail .none cause)
  | enter (depth : Nat) (pos : Position) {rest rest' : Plan} : Erases rest rest' →
      Erases (.enter depth pos rest) (.enter depth .none rest')
  | ask (task : Task) {next next' : Value → Plan} :
      (∀ v, Erases (next v) (next' v.eraseSpans)) →
      Erases (.ask task next) (.ask task.eraseSpans next')
  | call (depth : Nat) (pos : Position) (body : Expr) (scope : Scope) {next next' : Value → Plan} :
      (∀ v, Erases (next v) (next' v.eraseSpans)) →
      Erases (.call depth pos body scope next)
        (.call depth .none body.eraseSpans scope.eraseSpans next')

namespace Plan

theorem erases_ofResult (pos : Position) (result : Except EvalError.Cause Value) :
    Erases (ofResult pos result) (ofResult .none (result.map Value.eraseSpans)) := by
  cases result with
  | error cause => exact .fail pos cause
  | ok v => exact .done v

theorem erases_entries (scope bound : Scope) (depth : Nat) (es : List (Expr × Expr)) :
    Erases (entries scope depth bound es)
      (entries scope.eraseSpans depth bound.eraseSpans (Expr.eraseEntries es)) := by
  induction es generalizing bound with
  | nil =>
      have h := Erases.done (.set bound)
      rwa [Value.eraseSpans_set] at h
  | cons entry rest ih =>
      rcases entry with ⟨key, value⟩
      refine .ask (.expr key scope depth) fun k => ?_
      have hfail (kind : Kind) : Erases (.fail key.pos (.keyNotBits kind))
          (.fail key.eraseSpans.pos (.keyNotBits kind)) := by
        rw [Expr.pos_eraseSpans]
        exact .fail key.pos _
      cases k with
      | bits b =>
          refine .ask (.expr value scope depth) fun v => ?_
          have hrest := ih (bound.insert b v)
          rwa [Bindings.eraseSpans, Bindings.eraseSpans, Bindings.map_insert] at hrest
      | absent | null => exact hfail .null
      | set s =>
          rw [Value.eraseSpans_set]
          exact hfail .set
      | function scope pattern body =>
          rw [Value.eraseSpans_function]
          exact hfail .function

theorem erases_chain (scope : Scope) (depth : Nat) (left : Value)
    (operands : List (Span × Expr)) :
    Erases (chain scope depth left operands)
      (chain scope.eraseSpans depth left.eraseSpans
        (operands.map fun (_, operand) => (.none, operand.eraseSpans))) := by
  induction operands generalizing left with
  | nil => exact .done left
  | cons operand rest ih =>
      rcases operand with ⟨span, operand⟩
      refine .ask (.expr operand scope depth) fun right => ?_
      exact .ask (.combine left right span.start depth) fun joined => ih joined

theorem erases_fold (scope : Scope) (pattern : BitSeq) (body : Expr) (pos : Position)
    (depth : Nat) (joined : Value) (elements : List Value) :
    Erases (fold scope pattern body pos depth joined elements)
      (fold scope.eraseSpans pattern body.eraseSpans .none depth joined.eraseSpans
        (elements.map Value.eraseSpans)) := by
  induction elements generalizing joined with
  | nil =>
      simp only [fold, List.map_nil, Value.isAbsent_eraseSpans]
      split
      · exact .done .null
      · exact .done joined
  | cons element rest ih =>
      simp only [fold, List.map_cons, Value.isAbsent_eraseSpans]
      rw [Bindings.eraseSpans, ← Bindings.map_insert]
      refine .call depth pos body (scope.insert pattern element) fun result => ?_
      split
      · exact ih result
      · exact .ask (.combine joined result pos depth) fun joined => ih joined

theorem erases_ofRule (pos : Position) (depth : Nat) (rule : Rule) :
    Erases (ofRule pos depth rule) (ofRule .none depth rule.eraseSpans) := by
  cases rule with
  | result result => exact erases_ofResult pos result
  | call scope pattern body argument =>
      simp only [ofRule, Rule.eraseSpans]
      rw [Bindings.eraseSpans, ← Bindings.map_insert]
      exact .call depth pos body (scope.insert pattern argument) .done
  | fold scope pattern body elements =>
      exact erases_fold scope pattern body pos depth .absent elements

end Plan

/-- The plan of a task erases to the plan of the task without spans. -/
theorem Task.erases_plan (task : Task) : task.plan.Erases task.eraseSpans.plan := by
  cases task with
  | combine left right pos depth =>
      simp only [Task.eraseSpans, Task.plan_combine, ruleOf_eraseSpans]
      exact Plan.erases_ofRule pos depth (ruleOf left right)
  | expr e scope depth =>
      simp only [Task.eraseSpans, Task.plan, Expr.pos_eraseSpans]
      refine .enter depth e.pos ?_
      cases e with
      | absent => exact .done .null
      | literal span b => exact .done (.bits b)
      | scope span =>
          have h := Plan.Erases.done (.set scope)
          rwa [Value.eraseSpans_set] at h
      | set span es =>
          have h := Plan.erases_entries scope .empty (depth + 1) es
          rwa [Bindings.eraseSpans_empty] at h
      | function span pattern body =>
          refine .ask (.expr pattern scope (depth + 1)) fun p => ?_
          cases p with
          | bits b =>
              have h := Plan.Erases.done (.function scope b body)
              rwa [Value.eraseSpans_function] at h
          | set s =>
              rw [Value.eraseSpans_set]
              exact .fail span.start _
          | function inner b body =>
              rw [Value.eraseSpans_function]
              exact .fail span.start _
          | absent | null => exact .fail span.start _
      | combine span left right =>
          have hspine := Expr.spine_eraseSpans left [(span, right)]
          simp only [List.map_cons, List.map_nil] at hspine
          simp only [Expr.eraseSpans, hspine]
          exact .ask (.expr _ scope (depth + 1)) fun first =>
            Plan.erases_chain scope (depth + 1) first _

/-! ## Runs -/

/-- Erasing commutes with a sequence of two evaluations if it does with each. -/
theorem run_bind_eraseSpans {x x' : Eval Value} {f f' : Value → Eval Value} {tally : Tally}
    (hx : x'.run tally = (x.run tally).eraseSpans)
    (hf : ∀ v later, (f' v.eraseSpans).run later = ((f v).run later).eraseSpans) :
    (x' >>= f').run tally = ((x >>= f).run tally).eraseSpans := by
  rw [run_bind, run_bind, hx]
  cases x.run tally with
  | value v later => exact hf v later
  | failure error later => rfl
  | outOfFuel => rfl

theorem run_enter_eraseSpans {limit : Int} {depth : Nat} {pos : Position} {x x' : Eval Value}
    (hx : ∀ later, x'.run later = (x.run later).eraseSpans) (tally : Tally) :
    (enter limit depth .none >>= fun _ => x').run tally =
      ((enter limit depth pos >>= fun _ => x).run tally).eraseSpans := by
  rw [run_bind, run_bind]
  by_cases h : (depth : Int) ≤ limit
  · rw [run_enter_of_le h, run_enter_of_le h]
    exact hx _
  · rw [run_enter_of_lt (by omega), run_enter_of_lt (by omega)]
    rfl

theorem run_call_eraseSpans {limit : Int} {depth : Nat} {pos : Position} {x x' : Eval Value}
    (hx : ∀ later, x'.run later = (x.run later).eraseSpans) (tally : Tally) :
    (call limit depth .none >>= fun _ => x').run tally =
      ((call limit depth pos >>= fun _ => x).run tally).eraseSpans := by
  rw [run_bind, run_bind]
  by_cases h : (depth : Int) < limit
  · rw [run_call_of_lt h, run_call_of_lt h]
    exact hx _
  · rw [run_call_of_le (by omega), run_call_of_le (by omega)]
    rfl

/-- Following a plan without spans comes to the erased outcome, if this holds of the
tasks that the plan asks for. -/
theorem Plan.Erases.run_follow {limit : Int} {first second : Task → Eval Value}
    (htasks : ∀ task tally,
      (second task.eraseSpans).run tally = ((first task).run tally).eraseSpans)
    {plan plan' : Plan} (h : plan.Erases plan') (tally : Tally) :
    (plan'.follow limit second).run tally = ((plan.follow limit first).run tally).eraseSpans := by
  induction h generalizing tally with
  | done v => rfl
  | fail pos cause => rfl
  | enter depth pos _ ih => exact run_enter_eraseSpans ih tally
  | ask task _ ih => exact run_bind_eraseSpans (htasks task tally) ih
  | call depth pos body scope _ ih =>
      refine run_call_eraseSpans (fun later => ?_) tally
      exact run_bind_eraseSpans (htasks (.expr body scope (depth + 1)) later) ih

theorem Task.run_eraseSpans (limit : Int) (fuel : Nat) (task : Task) (tally : Tally) :
    (task.eraseSpans.run limit fuel).run tally =
      ((task.run limit fuel).run tally).eraseSpans := by
  induction fuel generalizing task tally with
  | zero => rw [Task.run_zero, Task.run_zero]; rfl
  | succ fuel ih =>
      rw [Task.run_succ, Task.run_succ]
      exact task.erases_plan.run_follow ih tally

end Eval

namespace Expr

open Eval

/-- Evaluating without spans comes to the erased outcome. -/
theorem eval_eraseSpans (limit : Int) (scope : Scope) (e : Expr) :
    e.eraseSpans.eval limit scope.eraseSpans = (e.eval limit scope).eraseSpans := by
  have hrun (fuel : Nat) := Task.run_eraseSpans limit fuel (.expr e scope 0) ⟨0, 0⟩
  by_cases h : e.eval limit scope = .outOfFuel
  · rw [h]
    by_contra hended
    obtain ⟨fuel, hfuel⟩ := exists_run_of_eval hended
    have hrunEnded : ((Task.expr e scope 0).run limit fuel).run ⟨0, 0⟩ ≠ .outOfFuel := by
      intro hout
      have herased := hrun fuel
      rw [hout] at herased
      exact hended (hfuel.symm.trans herased)
    exact hrunEnded ((eval_of_ended hrunEnded).symm.trans h)
  · obtain ⟨fuel, hfuel⟩ := exists_run_of_eval h
    have herased := hrun fuel
    rw [hfuel] at herased
    refine Eq.trans (eval_of_ended ?_) herased
    intro hout
    exact h (Outcome.eraseSpans_eq_outOfFuel.mp (herased.symm.trans hout))

/-- Trees that agree up to spans, evaluated under scopes that agree up to spans, end
alike: spans have no influence on a value beyond the spans in it, nor on the class or
the detail of an error, nor on the work done. -/
theorem eval_alikeUpToSpans {e e' : Expr} {scope scope' : Scope}
    (he : e.eraseSpans = e'.eraseSpans) (hscope : scope.eraseSpans = scope'.eraseSpans)
    (limit : Int) : (e.eval limit scope).AlikeUpToSpans (e'.eval limit scope') := by
  apply Outcome.alikeUpToSpans_of_eraseSpans_eq
  rw [← eval_eraseSpans, ← eval_eraseSpans, he, hscope]

/-- Looks a single bit up in the scope, as an expression that stands at `span`. -/
def lookup (span : Span) : Expr :=
  .combine span (.scope span) (.literal span ⟨1, [0x80]⟩)

/-- A scope that binds a single bit to a function whose body stands at `span`. -/
def lookupScope (span : Span) : Scope :=
  Bindings.empty.insert ⟨1, [0x80]⟩ (.function .empty ⟨1, [0x80]⟩ (lookup span))

/-- The function that is looked up has its body in another place when scope and
expression are moved, and the outcomes are alike nevertheless. -/
theorem eval_lookup_alikeUpToSpans :
    let here : Span := ⟨⟨0, 1, 1⟩, ⟨4, 1, 5⟩⟩
    let there : Span := ⟨⟨7, 2, 3⟩, ⟨11, 2, 7⟩⟩
    (lookup here).eraseSpans = (lookup there).eraseSpans ∧
      (lookupScope here).eraseSpans = (lookupScope there).eraseSpans ∧
      ((lookup here).eval 10 (lookupScope here)).AlikeUpToSpans
        ((lookup there).eval 10 (lookupScope there)) := by
  intro here there
  have he : (lookup here).eraseSpans = (lookup there).eraseSpans := rfl
  have hscope : (lookupScope here).eraseSpans = (lookupScope there).eraseSpans := by cbv
  exact ⟨he, hscope, eval_alikeUpToSpans he hscope 10⟩

end Expr

end BitLang
