/-
# Only the scope itself reads the scope

A tree in which no node stands for the scope evaluates alike under all scopes.  Functions
that it makes do remember the scope they were made in, so the values differ, but only there;
and since their bodies do not read a scope either, no rule of the operator, no error and no
count of the work done can tell.

The argument runs two evaluations side by side.  Their plans take the same steps, and answers
that agree apart from their scopes lead on to plans that do so again.
-/

import BitLang.Proofs.Eval.Fuel
import BitLang.Proofs.Value.Scopes
import BitLang.Session

namespace BitLang

/-- Two evaluations end alike apart from the scopes in their values: with values that agree
apart from these, or with the same error, and in both cases with the same work done; or
neither of them ends. -/
inductive Outcome.AlikeUpToScopes : Outcome Value → Outcome Value → Prop
  | value {v w : Value} (tally : Tally) : v.AlikeUpToScopes w →
      AlikeUpToScopes (.value v tally) (.value w tally)
  | failure (error : EvalError) (tally : Tally) :
      AlikeUpToScopes (.failure error tally) (.failure error tally)
  | outOfFuel : AlikeUpToScopes .outOfFuel .outOfFuel

theorem Outcome.AlikeUpToScopes.eq_outOfFuel_iff {outcome outcome' : Outcome Value}
    (h : outcome.AlikeUpToScopes outcome') :
    outcome = .outOfFuel ↔ outcome' = .outOfFuel := by
  cases h <;> simp only [reduceCtorEq]

namespace Eval

/-! ## The rules -/

/-- What two rules have in common when the values they are for agree apart from their scopes.
A function that is called or folded does not look at its argument, nor at its scope. -/
inductive Rule.AlikeUpToScopes : Rule → Rule → Prop
  | value {v w : Value} : v.AlikeUpToScopes w →
      AlikeUpToScopes (.result (.ok v)) (.result (.ok w))
  | error (cause : EvalError.Cause) :
      AlikeUpToScopes (.result (.error cause)) (.result (.error cause))
  | call {scope scope' : Scope} {pattern : BitSeq} {body : Expr} {argument argument' : Value} :
      body.ScopeFree →
      AlikeUpToScopes (.call scope pattern body argument) (.call scope' pattern body argument')
  | fold {scope scope' : Scope} {pattern : BitSeq} {body : Expr}
      {elements elements' : List Value} : body.ScopeFree → elements.length = elements'.length →
      AlikeUpToScopes (.fold scope pattern body elements) (.fold scope' pattern body elements')

section Sets

variable {pairs : Bindings (Value × Value)} (h : pairs.AlikeInPairs)
include h

theorem boundOf_map_fst (i : Nat) :
    boundOf (pairs.map Prod.fst) i = boundOf (pairs.map Prod.snd) i := by
  unfold boundOf
  rw [Bindings.get?_map, Bindings.get?_map]
  cases hget : pairs.get? (.encode i) with
  | none => rfl
  | some pair =>
      rcases pair with ⟨v, w⟩
      cases h.of_get? hget <;> rfl

theorem alikeUpToScopes_sliceOf (b : BitSeq) :
    (Rule.result (sliceOf b (pairs.map Prod.fst))).AlikeUpToScopes
      (.result (sliceOf b (pairs.map Prod.snd))) := by
  unfold sliceOf
  rw [boundOf_map_fst h, boundOf_map_fst h]
  cases boundOf (pairs.map Prod.snd) 0 with
  | error cause => exact .error cause
  | ok start =>
      cases boundOf (pairs.map Prod.snd) 1 with
      | error cause => exact .error cause
      | ok stop =>
          show (Rule.result (if stop < start ∨ b.len < stop then _ else _)).AlikeUpToScopes
            (.result (if stop < start ∨ b.len < stop then _ else _))
          split
          · exact .error _
          · exact .value (.bits _)

theorem alikeUpToScopes_getD_get? (b : BitSeq) :
    (((pairs.map Prod.fst).get? b).getD .null).AlikeUpToScopes
      (((pairs.map Prod.snd).get? b).getD .null) := by
  rw [Bindings.get?_map, Bindings.get?_map]
  cases hget : pairs.get? b with
  | none => exact .null
  | some pair => exact h.of_get? hget

theorem alikeUpToScopes_merge {pairs' : Bindings (Value × Value)} (h' : pairs'.AlikeInPairs) :
    (Value.set ((pairs.map Prod.fst).merge (pairs'.map Prod.fst))).AlikeUpToScopes
      (.set ((pairs.map Prod.snd).merge (pairs'.map Prod.snd))) := by
  rw [← Bindings.map_merge, ← Bindings.map_merge]
  exact .set (h.merge h')

end Sets

/-- The keys of a set are listed without a look at its values. -/
theorem alikeUpToScopes_keysOf (pairs : Bindings (Value × Value)) :
    (keysOf (pairs.map Prod.fst)).AlikeUpToScopes (keysOf (pairs.map Prod.snd)) := by
  -- each key stands for the pair of itself with itself
  let entry (listed : BitSeq × Nat) : BitSeq × (Value × Value) :=
    (.encode listed.2, (.bits listed.1, .bits listed.1))
  have hboth (f : Value × Value → Value) (hf : ∀ v, f (v, v) = v) : keysOf (pairs.map f) =
      .set ((Bindings.ofList (pairs.keys.zipIdx.map entry)).map f) := by
    rw [Bindings.map_ofList, List.map_map, keysOf, Bindings.keys_map]
    simp only [entry, Function.comp_def, hf]
  rw [hboth Prod.fst fun _ => rfl, hboth Prod.snd fun _ => rfl]
  have hpairs : (Bindings.ofList (pairs.keys.zipIdx.map entry)).AlikeInPairs := by
    refine (Bindings.forallValues_empty _).insertAll fun entry hmem => ?_
    obtain ⟨⟨key, i⟩, -, rfl⟩ := List.mem_map.mp hmem
    exact .bits key
  exact .set hpairs

/-- Which rule applies, and what it comes to, does not depend on the scopes in the values. -/
theorem alikeUpToScopes_ruleOf {left left' right right' : Value}
    (hleft : left.AlikeUpToScopes left') (hright : right.AlikeUpToScopes right') :
    (ruleOf left right).AlikeUpToScopes (ruleOf left' right') := by
  cases hleft with
  | absent => cases hright <;> exact .error _
  | null =>
      show Rule.AlikeUpToScopes (.result (.ok (.nat right.kind.code)))
        (.result (.ok (.nat right'.kind.code)))
      rw [hright.kind_eq]
      exact .value (.bits _)
  | bits a =>
      cases hright with
      | absent => exact .error _
      | null => exact .value (.bits _)
      | bits b => exact .value (.bits _)
      | set h => exact alikeUpToScopes_sliceOf h a
      | function hbody => exact .fold hbody rfl
  | set h =>
      cases hright with
      | absent => exact .error _
      | null => exact .value (alikeUpToScopes_keysOf _)
      | bits b => exact .value (alikeUpToScopes_getD_get? h b)
      | set h' => exact .value (alikeUpToScopes_merge h h')
      | function hbody =>
          refine .fold hbody ?_
          rw [Bindings.values_map, Bindings.values_map, List.length_map, List.length_map]
  | function hbody => exact .call hbody

/-! ## The plans -/

/-- The tasks are alike apart from scopes: to find the value of the same expression, which
does not read the scope, or to combine values that agree apart from their scopes. -/
inductive Task.AlikeUpToScopes : Task → Task → Prop
  | expr {e : Expr} (scope scope' : Scope) (depth : Nat) : e.ScopeFree →
      AlikeUpToScopes (.expr e scope depth) (.expr e scope' depth)
  | combine {left left' right right' : Value} (pos : Position) (depth : Nat) :
      left.AlikeUpToScopes left' → right.AlikeUpToScopes right' →
      AlikeUpToScopes (.combine left right pos depth) (.combine left' right' pos depth)

/-- The plans take the same steps, and go on doing so after answers that agree apart from
their scopes. -/
inductive Plan.AlikeUpToScopes : Plan → Plan → Prop
  | done {v w : Value} : v.AlikeUpToScopes w → AlikeUpToScopes (.done v) (.done w)
  | fail (pos : Position) (cause : EvalError.Cause) :
      AlikeUpToScopes (.fail pos cause) (.fail pos cause)
  | enter (depth : Nat) (pos : Position) {rest rest' : Plan} : AlikeUpToScopes rest rest' →
      AlikeUpToScopes (.enter depth pos rest) (.enter depth pos rest')
  | ask {task task' : Task} {next next' : Value → Plan} : task.AlikeUpToScopes task' →
      (∀ v w, v.AlikeUpToScopes w → AlikeUpToScopes (next v) (next' w)) →
      AlikeUpToScopes (.ask task next) (.ask task' next')
  | call (depth : Nat) (pos : Position) {body : Expr} (scope scope' : Scope)
      {next next' : Value → Plan} : body.ScopeFree →
      (∀ v w, v.AlikeUpToScopes w → AlikeUpToScopes (next v) (next' w)) →
      AlikeUpToScopes (.call depth pos body scope next) (.call depth pos body scope' next')

namespace Plan

theorem alikeUpToScopes_entries (scope scope' : Scope) (depth : Nat)
    {bound : Bindings (Value × Value)} (hbound : bound.AlikeInPairs) {es : List (Expr × Expr)}
    (h : Expr.AllEntries Expr.IsNotScope es) :
    AlikeUpToScopes (entries scope depth (bound.map Prod.fst) es)
      (entries scope' depth (bound.map Prod.snd) es) := by
  induction es generalizing bound with
  | nil => exact .done (.set hbound)
  | cons entry rest ih =>
      rcases entry with ⟨key, value⟩
      obtain ⟨hkey, hvalue, hrest⟩ := h
      refine .ask (.expr scope scope' depth hkey) fun k k' hk => ?_
      cases hk with
      | bits b =>
          refine .ask (.expr scope scope' depth hvalue) fun v w hvw => ?_
          have hmore : (bound.insert b (v, w)).AlikeInPairs := hbound.insert b hvw
          have hnext := ih hmore hrest
          rwa [Bindings.map_insert, Bindings.map_insert] at hnext
      | _ => exact .fail _ _

theorem alikeUpToScopes_chain (scope scope' : Scope) (depth : Nat) {left left' : Value}
    (hleft : left.AlikeUpToScopes left') {operands : List (Span × Expr)}
    (h : ∀ operand ∈ operands, operand.2.ScopeFree) :
    AlikeUpToScopes (chain scope depth left operands) (chain scope' depth left' operands) := by
  induction operands generalizing left left' with
  | nil => exact .done hleft
  | cons operand rest ih =>
      obtain ⟨hoperand, hrest⟩ := List.forall_mem_cons.mp h
      refine .ask (.expr scope scope' depth hoperand) fun right right' hright => ?_
      exact .ask (.combine _ depth hleft hright) fun joined joined' hjoined => ih hjoined hrest

/-- A fold goes by the number of its elements alone. -/
theorem alikeUpToScopes_fold (scope scope' : Scope) (pattern : BitSeq) {body : Expr}
    (hbody : body.ScopeFree) (pos : Position) (depth : Nat) {joined joined' : Value}
    (hjoined : joined.AlikeUpToScopes joined') {elements elements' : List Value}
    (h : elements.length = elements'.length) :
    AlikeUpToScopes (fold scope pattern body pos depth joined elements)
      (fold scope' pattern body pos depth joined' elements') := by
  induction elements generalizing joined joined' elements' with
  | nil =>
      obtain rfl := List.length_eq_zero_iff.mp h.symm
      simp only [fold, hjoined.isAbsent_eq]
      split
      · exact .done .null
      · exact .done hjoined
  | cons element rest ih =>
      obtain ⟨element', rest', rfl⟩ := List.exists_cons_of_length_eq_add_one h.symm
      have hrest : rest.length = rest'.length := Nat.succ.inj h
      refine .call depth pos _ _ hbody fun result result' hresult => ?_
      simp only [hjoined.isAbsent_eq]
      split
      · exact ih hresult hrest
      · exact .ask (.combine pos depth hjoined hresult) fun _ _ hnext => ih hnext hrest

theorem alikeUpToScopes_ofRule (pos : Position) (depth : Nat) {rule rule' : Rule}
    (h : rule.AlikeUpToScopes rule') :
    AlikeUpToScopes (ofRule pos depth rule) (ofRule pos depth rule') := by
  cases h with
  | value hvw => exact .done hvw
  | error cause => exact .fail pos cause
  | call hbody => exact .call depth pos _ _ hbody fun _ _ hvw => .done hvw
  | fold hbody hlength => exact alikeUpToScopes_fold _ _ _ hbody pos depth .absent hlength

end Plan

/-- The plans of tasks that are alike are alike. -/
theorem Task.AlikeUpToScopes.plan {task task' : Task} (h : task.AlikeUpToScopes task') :
    task.plan.AlikeUpToScopes task'.plan := by
  cases h with
  | combine pos depth hleft hright =>
      exact Plan.alikeUpToScopes_ofRule pos depth (alikeUpToScopes_ruleOf hleft hright)
  | @expr e scope scope' depth he =>
      refine .enter depth e.pos ?_
      cases e with
      | absent => exact .done .null
      | literal span b => exact .done (.bits b)
      | scope span => exact absurd he id
      | set span es =>
          have hplan := Plan.alikeUpToScopes_entries scope scope' (depth + 1)
            (Bindings.forallValues_empty _) he.2
          rwa [Bindings.map_empty, Bindings.map_empty] at hplan
      | function span pattern body =>
          refine .ask (.expr scope scope' (depth + 1) he.2.1) fun p p' hp => ?_
          cases hp with
          | bits b => exact .done (.function he.2.2)
          | _ => exact .fail _ _
      | combine span left right =>
          have hlast : ∀ operand ∈ [(span, right)], operand.2.ScopeFree :=
            List.forall_mem_singleton.mpr he.2.2
          obtain ⟨hhead, hoperands⟩ := Expr.All.spine he.2.1 hlast
          refine .ask (.expr scope scope' (depth + 1) hhead) fun first first' hfirst => ?_
          exact Plan.alikeUpToScopes_chain scope scope' (depth + 1) hfirst hoperands

/-! ## The runs -/

theorem alikeUpToScopes_bind {x x' : Eval Value} {f f' : Value → Eval Value} {tally : Tally}
    (hx : (x.run tally).AlikeUpToScopes (x'.run tally))
    (hf : ∀ v w later, v.AlikeUpToScopes w →
      ((f v).run later).AlikeUpToScopes ((f' w).run later)) :
    ((x >>= f).run tally).AlikeUpToScopes ((x' >>= f').run tally) := by
  rw [run_bind, run_bind]
  generalize x.run tally = outcome at hx
  generalize x'.run tally = outcome' at hx
  cases hx with
  | value later hvw => exact hf _ _ later hvw
  | failure error later => exact .failure error later
  | outOfFuel => exact .outOfFuel

/-- A step that both evaluations take before they go on. -/
theorem alikeUpToScopes_step (step : Eval Unit) {x x' : Eval Value}
    (hx : ∀ later, (x.run later).AlikeUpToScopes (x'.run later)) (tally : Tally) :
    ((step >>= fun _ => x).run tally).AlikeUpToScopes ((step >>= fun _ => x').run tally) := by
  rw [run_bind, run_bind]
  cases step.run tally with
  | value _ later => exact hx later
  | failure error later => exact .failure error later
  | outOfFuel => exact .outOfFuel

theorem Plan.AlikeUpToScopes.run_follow {limit : Int} {carryOut : Task → Eval Value}
    (htasks : ∀ task task' tally, task.AlikeUpToScopes task' →
      ((carryOut task).run tally).AlikeUpToScopes ((carryOut task').run tally))
    {plan plan' : Plan} (h : plan.AlikeUpToScopes plan') (tally : Tally) :
    ((plan.follow limit carryOut).run tally).AlikeUpToScopes
      ((plan'.follow limit carryOut).run tally) := by
  induction h generalizing tally with
  | done hvw => exact .value tally hvw
  | fail pos cause => exact .failure _ tally
  | enter depth pos _ ih => exact alikeUpToScopes_step _ ih tally
  | ask htask _ ih =>
      exact alikeUpToScopes_bind (htasks _ _ tally htask) fun v w later hvw => ih v w hvw later
  | call depth pos scope scope' hbody _ ih =>
      refine alikeUpToScopes_step _ (fun later => ?_) tally
      exact alikeUpToScopes_bind (htasks _ _ later (.expr _ _ _ hbody))
        fun v w later hvw => ih v w hvw later

/-- Tasks that are alike apart from scopes come to outcomes that are. -/
theorem Task.AlikeUpToScopes.run {task task' : Task} (h : task.AlikeUpToScopes task')
    (limit : Int) (fuel : Nat) (tally : Tally) :
    ((task.run limit fuel).run tally).AlikeUpToScopes ((task'.run limit fuel).run tally) := by
  induction fuel generalizing task task' tally with
  | zero =>
      rw [Task.run_zero, Task.run_zero]
      exact .outOfFuel
  | succ fuel ih =>
      rw [Task.run_succ, Task.run_succ]
      exact h.plan.run_follow (fun _ _ tally htask => ih htask tally) tally

end Eval

namespace Expr

open Eval

/-- A tree that does not read the scope evaluates alike under all scopes. -/
theorem ScopeFree.alikeUpToScopes_eval {e : Expr} (h : e.ScopeFree) (limit : Int)
    (scope scope' : Scope) : (e.eval limit scope).AlikeUpToScopes (e.eval limit scope') := by
  have hrun (fuel : Nat) := (Task.AlikeUpToScopes.expr scope scope' 0 h).run limit fuel ⟨0, 0⟩
  by_cases hout : e.eval limit scope = .outOfFuel
  · have hout' : e.eval limit scope' = .outOfFuel := by
      by_contra hended
      obtain ⟨fuel, hfuel⟩ := exists_run_of_eval hended
      have hfirst : ((Task.expr e scope 0).run limit fuel).run ⟨0, 0⟩ ≠ .outOfFuel := by
        intro hfirst
        exact hended (hfuel.symm.trans ((hrun fuel).eq_outOfFuel_iff.mp hfirst))
      exact hfirst ((eval_of_ended hfirst).symm.trans hout)
    rw [hout, hout']
    exact .outOfFuel
  · obtain ⟨fuel, hfuel⟩ := exists_run_of_eval hout
    have hsecond : ((Task.expr e scope' 0).run limit fuel).run ⟨0, 0⟩ ≠ .outOfFuel := by
      intro hsecond
      exact hout (hfuel.symm.trans ((hrun fuel).eq_outOfFuel_iff.mpr hsecond))
    rw [← hfuel, eval_of_ended hsecond]
    exact hrun fuel

end Expr

/-- Two sessions whose last results are the same, or agree apart from their scopes, after the
same work. -/
structure Session.LeftAlike (first second : Session) : Prop where
  last : first.last = second.last ∨ first.last.AlikeUpToScopes second.last
  tally : first.tally = second.tally

/-- What is bound in a session has no influence on an entry that does not read the scope: the
same is printed or reported, and the sessions are left alike. -/
theorem Session.enter_of_scopeFree {e : Expr} (h : e.ScopeFree) {source : Bytes}
    (hparse : Expr.parse source = .ok e) (s : Session) (scope : Scope) :
    (s.enter source).2 = ({ s with scope }.enter source).2 ∧
      (s.enter source).1.LeftAlike ({ s with scope }.enter source).1 := by
  have heval := h.alikeUpToScopes_eval s.limit s.scope scope
  unfold enter
  simp only [hparse]
  generalize e.eval s.limit s.scope = outcome at heval
  generalize e.eval s.limit scope = outcome' at heval
  cases heval with
  | value tally hvw => exact ⟨hvw.print_eq s.format, .inr hvw, rfl⟩
  | failure error tally => exact ⟨rfl, .inl rfl, rfl⟩
  | outOfFuel => exact ⟨rfl, .inl rfl, rfl⟩

/-- A tree in which nothing stands for the scope evaluates alike under any two scopes.  The
values agree apart from the scopes that their functions remember, an error is the very same,
and so is the work done; and in a session, the entry is answered the same whatever is bound. -/
theorem Expr.eval_of_scopeFree {e : Expr} (h : e.ScopeFree) :
    (∀ (limit : Int) (scope scope' : Scope),
      (e.eval limit scope).AlikeUpToScopes (e.eval limit scope')) ∧
    ∀ (source : Bytes), parse source = .ok e → ∀ (s : Session) (scope : Scope),
      (s.enter source).2 = ({ s with scope }.enter source).2 ∧
        (s.enter source).1.LeftAlike ({ s with scope }.enter source).1 :=
  ⟨h.alikeUpToScopes_eval, fun _ hparse => Session.enter_of_scopeFree h hparse⟩

/-- A function that makes a function, called. -/
def curriedSource : Bytes := utf8 "(x:y:c)a"

/-- The tree of the call. -/
def curried : Expr :=
  let on (start stop : Nat) : Span := ⟨⟨start, 1, start + 1⟩, ⟨stop, 1, stop + 1⟩⟩
  .combine (on 1 8)
    (.function (on 1 6) (.literal (on 1 2) ⟨8, [0x78]⟩)
      (.function (on 3 6) (.literal (on 3 4) ⟨8, [0x79]⟩) (.literal (on 5 6) ⟨8, [0x63]⟩)))
    (.literal (on 7 8) ⟨8, [0x61]⟩)

/-- The function that the call makes remembers what is bound around it, and nobody can tell. -/
theorem Expr.eval_curried_of_scopeFree :
    curried.ScopeFree ∧ parse curriedSource = .ok curried ∧
      (curried.eval 10 .empty).AlikeUpToScopes
        (curried.eval 10 (Bindings.empty.insert (.encode 5) .null)) ∧
      ((Session.start 10 []).enter curriedSource).2 =
        ({ Session.start 10 [] with scope := Bindings.empty.insert (.encode 5) .null }.enter
          curriedSource).2 := by
  have hfree : curried.ScopeFree :=
    ⟨trivial, ⟨trivial, trivial, trivial, trivial, trivial⟩, trivial⟩
  have hparse : parse curriedSource = .ok curried := by rfl
  obtain ⟨heval, henter⟩ := eval_of_scopeFree hfree
  exact ⟨hfree, hparse, heval 10 _ _, (henter curriedSource hparse _ _).1⟩

end BitLang
