/-
# Where evaluation errors stand

An evaluation error is attributed to an expression: to one that it evaluates, or to one in the
body of a function that was made from it before.  Whatever holds of every node of the tree holds of
every node that evaluation comes to, however deep in calls, folds and remembered scopes.  So every
error is attributed to a node with the property, and the cause tells which nodes it may be
(`EvalError.AttributedTo`).  The position of the error is that of the node, or nowhere if the node
is absent.
-/

import BitLang.Proofs.Eval.Soundness
import BitLang.Proofs.Expr.Positions
import BitLang.Proofs.Value.Scopes

namespace BitLang

/-- All nodes in the bodies of all functions in the value have the property. -/
inductive Value.AllNodes (N : Expr → Prop) : Value → Prop
  | absent : AllNodes N .absent
  | null : AllNodes N .null
  | bits (b : BitSeq) : AllNodes N (.bits b)
  | set {s : Scope} : (∀ entry ∈ s.toList, AllNodes N entry.2) → AllNodes N (.set s)
  | function {scope : Scope} {pattern : BitSeq} {body : Expr} :
      (∀ entry ∈ scope.toList, AllNodes N entry.2) → body.All N →
      AllNodes N (.function scope pattern body)

/-- All nodes in all values of the scope have the property. -/
abbrev Bindings.AllNodes (N : Expr → Prop) (scope : Scope) : Prop :=
  scope.ForallValues (Value.AllNodes N)

/-- The error is attributed to a node with the property: to one that is entered too deep, to a key
of a set or to a function whose pattern is no bits, or to operands side by side. -/
inductive EvalError.AttributedTo (N : Expr → Prop) : EvalError → Prop
  | level {node : Expr} (limit : Int) : N node → AttributedTo N ⟨node.pos, .tooDeep limit⟩
  | key {span : Span} {entries : List (Expr × Expr)} {entry : Expr × Expr} (kind : Kind) :
      N (.set span entries) → entry ∈ entries → N entry.1 →
      AttributedTo N ⟨entry.1.pos, .keyNotBits kind⟩
  | pattern {span : Span} {pattern body : Expr} (kind : Kind) : N (.function span pattern body) →
      AttributedTo N ⟨span.start, .patternNotBits kind⟩
  | operands {span : Span} {left right : Expr} (cause : EvalError.Cause) :
      N (.combine span left right) → AttributedTo N ⟨span.start, cause⟩

variable {N : Expr → Prop}

namespace Expr

/-- The position is that of two operands side by side with the property. -/
def Joins (N : Expr → Prop) (pos : Position) : Prop :=
  ∃ span left right, N (.combine span left right) ∧ span.start = pos

theorem Joins.attributedTo {pos : Position} (h : Joins N pos) (cause : EvalError.Cause) :
    EvalError.AttributedTo N ⟨pos, cause⟩ := by
  obtain ⟨span, left, right, hnode, rfl⟩ := h
  exact .operands cause hnode

/-- In the chain of operands of a tree, each operand comes with the position of the chain up to
it. -/
theorem All.spine_joins {e : Expr} (h : e.All N) {others : List (Span × Expr)}
    (hothers : ∀ operand ∈ others, Joins N operand.1.start ∧ operand.2.All N) :
    (e.spine others).1.All N ∧
      ∀ operand ∈ (e.spine others).2, Joins N operand.1.start ∧ operand.2.All N := by
  induction e using Expr.induction generalizing others with
  | combine span left right ih _ =>
      refine ih h.2.1 (List.forall_mem_cons.mpr ⟨⟨?_, h.2.2⟩, hothers⟩)
      exact ⟨span, left, right, h.1, rfl⟩
  | _ => exact ⟨h, hothers⟩

end Expr

namespace Eval

/-! ## The rules -/

/-- All nodes in the task have the property, and two values are combined where operands with the
property are. -/
def Task.AllNodes (N : Expr → Prop) : Task → Prop
  | .expr e scope _ => e.All N ∧ scope.AllNodes N
  | .combine left right pos _ => left.AllNodes N ∧ right.AllNodes N ∧ Expr.Joins N pos

/-- From nodes with the property, evaluation comes to others with the property, and attributes
errors to them. -/
def attribution (N : Expr → Prop) : Contract where
  task := Task.AllNodes N
  value := Value.AllNodes N
  error := EvalError.AttributedTo N

/-- All nodes in the rule have the property. -/
inductive Rule.AllNodes (N : Expr → Prop) : Rule → Prop
  | value {v : Value} : v.AllNodes N → AllNodes N (.result (.ok v))
  | error (cause : EvalError.Cause) : AllNodes N (.result (.error cause))
  | call {scope : Scope} {pattern : BitSeq} {body : Expr} {argument : Value} : scope.AllNodes N →
      body.All N → argument.AllNodes N → AllNodes N (.call scope pattern body argument)
  | fold {scope : Scope} {pattern : BitSeq} {body : Expr} {elements : List Value} :
      scope.AllNodes N → body.All N → (∀ v ∈ elements, v.AllNodes N) →
      AllNodes N (.fold scope pattern body elements)

theorem allNodes_sliceOf (b : BitSeq) (range : Scope) :
    (Rule.result (sliceOf b range)).AllNodes N := by
  cases h : sliceOf b range with
  | error cause => exact .error cause
  | ok v =>
      obtain ⟨start, -, h⟩ := exists_of_bind_eq_ok h
      obtain ⟨stop, -, h⟩ := exists_of_bind_eq_ok h
      split at h
      · cases h
      · cases h
        exact .value (.bits _)

theorem allNodes_keysOf (s : Scope) : (keysOf s).AllNodes N := by
  refine .set ((Bindings.forallValues_empty _).insertAll fun entry hmem => ?_)
  obtain ⟨⟨key, i⟩, -, rfl⟩ := List.mem_map.mp hmem
  exact .bits key

theorem allNodes_values {s : Scope} (h : s.AllNodes N) : ∀ v ∈ s.values, v.AllNodes N := by
  intro v hmem
  obtain ⟨entry, hentry, rfl⟩ := List.mem_map.mp hmem
  exact h entry hentry

/-- Two values have a rule with no other nodes than theirs. -/
theorem allNodes_ruleOf {left right : Value} (hleft : left.AllNodes N) (hright : right.AllNodes N) :
    (ruleOf left right).AllNodes N := by
  cases hleft with
  | absent => cases hright <;> exact .error _
  | null => exact .value (.bits _)
  | function hscope hbody => exact .call hscope hbody hright
  | bits a =>
      cases hright with
      | absent => exact .error _
      | null => exact .value (.bits _)
      | bits b => exact .value (.bits _)
      | set _ => exact allNodes_sliceOf a _
      | function hscope hbody =>
          refine .fold hscope hbody fun v hmem => ?_
          obtain ⟨bit, -, rfl⟩ := List.mem_map.mp hmem
          exact .bits _
  | @set a ha =>
      cases hright with
      | absent => exact .error _
      | null => exact .value (allNodes_keysOf a)
      | bits b =>
          refine .value ?_
          cases h : a.get? b with
          | none => exact .null
          | some v => exact Bindings.ForallValues.of_get? ha h
      | set hb => exact .value (.set (Bindings.ForallValues.merge ha hb))
      | function hscope hbody => exact .fold hscope hbody (allNodes_values ha)

/-! ## The plans -/

namespace Plan

theorem keeps_attribution_entries {scope bound : Scope} (hscope : scope.AllNodes N)
    (hbound : bound.AllNodes N) (depth : Nat) {span : Span} {all es : List (Expr × Expr)}
    (hset : N (.set span all))
    (h : ∀ entry ∈ es, entry ∈ all ∧ entry.1.All N ∧ entry.2.All N) :
    (entries scope depth bound es).Keeps (attribution N) := by
  induction es generalizing bound with
  | nil => exact .done (.set hbound)
  | cons entry rest ih =>
      obtain ⟨⟨hmem, hkey, hvalue⟩, hrest⟩ := List.forall_mem_cons.mp h
      refine .ask ⟨hkey, hscope⟩ fun k _ => ?_
      cases k with
      | bits b => exact .ask ⟨hvalue, hscope⟩ fun v hv => ih (hbound.insert b hv) hrest
      | _ => exact .fail (.key _ hset hmem hkey.node)

theorem keeps_attribution_chain {scope : Scope} (hscope : scope.AllNodes N) (depth : Nat)
    {left : Value} (hleft : left.AllNodes N) {operands : List (Span × Expr)}
    (h : ∀ operand ∈ operands, Expr.Joins N operand.1.start ∧ operand.2.All N) :
    (chain scope depth left operands).Keeps (attribution N) := by
  induction operands generalizing left with
  | nil => exact .done hleft
  | cons operand rest ih =>
      obtain ⟨⟨hpos, hoperand⟩, hrest⟩ := List.forall_mem_cons.mp h
      refine .ask ⟨hoperand, hscope⟩ fun right hright => ?_
      exact .ask ⟨hleft, hright, hpos⟩ fun joined hjoined => ih hjoined hrest

theorem keeps_attribution_fold {scope : Scope} {pattern : BitSeq} {body : Expr}
    (hscope : scope.AllNodes N) (hbody : body.All N) {pos : Position} (hpos : Expr.Joins N pos)
    (depth : Nat) {joined : Value} (hjoined : joined.AllNodes N) {elements : List Value}
    (h : ∀ v ∈ elements, v.AllNodes N) :
    (fold scope pattern body pos depth joined elements).Keeps (attribution N) := by
  induction elements generalizing joined with
  | nil =>
      rw [fold]
      split
      · exact .done .null
      · exact .done hjoined
  | cons element rest ih =>
      obtain ⟨helement, hrest⟩ := List.forall_mem_cons.mp h
      refine .call (fun _ => hpos.attributedTo _) ⟨hbody, hscope.insert pattern helement⟩
        fun v hv => ?_
      split
      · exact ih hv hrest
      · exact .ask ⟨hjoined, hv, hpos⟩ fun w hw => ih hw hrest

theorem keeps_attribution_ofRule {rule : Rule} (h : rule.AllNodes N) {pos : Position}
    (hpos : Expr.Joins N pos) (depth : Nat) : (ofRule pos depth rule).Keeps (attribution N) := by
  cases h with
  | value hv => exact .done hv
  | error cause => exact .fail (hpos.attributedTo cause)
  | @call _ pattern _ _ hscope hbody hargument =>
      exact .call (fun _ => hpos.attributedTo _) ⟨hbody, hscope.insert pattern hargument⟩
        fun v hv => .done hv
  | fold hscope hbody helements =>
      exact keeps_attribution_fold hscope hbody hpos depth .absent helements

end Plan

/-- The plan of a task leads to no other nodes than those in the task. -/
theorem Task.keeps_attribution_plan (task : Task) (h : task.AllNodes N) :
    task.plan.Keeps (attribution N) := by
  cases task with
  | combine left right pos depth =>
      rw [Task.plan_combine]
      exact Plan.keeps_attribution_ofRule (allNodes_ruleOf h.1 h.2.1) h.2.2 depth
  | expr e scope depth =>
      obtain ⟨he, hscope⟩ := h
      refine .enter (fun limit => .level limit he.node) ?_
      cases e with
      | absent => exact .done .null
      | literal span b => exact .done (.bits b)
      | scope span => exact .done (.set hscope)
      | set span es =>
          exact Plan.keeps_attribution_entries hscope (Bindings.forallValues_empty _) (depth + 1)
            he.1 fun entry hmem => ⟨hmem, Expr.allEntries_iff.mp he.2 entry hmem⟩
      | function span pattern body =>
          refine .ask ⟨he.2.1, hscope⟩ fun p _ => ?_
          cases p with
          | bits b => exact .done (.function hscope he.2.2)
          | _ => exact .fail (.pattern _ he.1)
      | combine span left right =>
          have hothers : ∀ operand ∈ [(span, right)],
              Expr.Joins N operand.1.start ∧ operand.2.All N :=
            List.forall_mem_singleton.mpr ⟨⟨span, left, right, he.1, rfl⟩, he.2.2⟩
          obtain ⟨hhead, hoperands⟩ := he.2.1.spine_joins hothers
          refine .ask ⟨hhead, hscope⟩ fun first hfirst => ?_
          exact Plan.keeps_attribution_chain hscope (depth + 1) hfirst hoperands

end Eval

open Eval

/-- An error of evaluation is attributed to a node of the tree that is evaluated. -/
theorem Expr.All.of_failure {e : Expr} (h : e.All N) {limit : Int} {error : EvalError}
    {tally : Tally} (heval : e.eval limit .empty = .failure error tally) :
    error.AttributedTo N := by
  obtain ⟨fuel, hfuel⟩ := exists_run_of_eval (by rw [heval]; exact nofun)
  have htask : (attribution N).task (.expr e .empty 0) := ⟨h, Bindings.forallValues_empty _⟩
  have hadmits := Contract.admits_run Task.keeps_attribution_plan limit fuel htask ⟨0, 0⟩
  rw [hfuel, heval] at hadmits
  exact hadmits

/-- An error of evaluation stands at a node of the tree that is evaluated. -/
theorem Expr.Placed.of_failure {P : Position → Prop} {e : Expr} (h : e.Placed P) {limit : Int}
    {error : EvalError} {tally : Tally} (heval : e.eval limit .empty = .failure error tally) :
    P error.pos := by
  cases Expr.All.of_failure h heval with
  | level _ hnode => exact hnode
  | key _ _ _ hkey => exact hkey
  | pattern _ hnode => exact hnode
  | operands _ hnode => exact hnode

end BitLang
