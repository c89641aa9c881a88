/-
# Folds

A fold calls a function on one element after another and joins the results from left to right.
Where all results are bit sequences, or all are sets, joining is concatenation or merging.  Both
are associative, so it makes no difference in which portions the elements are folded: folding
two lists and joining what they come to is folding the one behind the other.

Calls and joins take turns, but what a call comes to does not depend on the work done before it,
and so neither does it depend on when it is made.  `Gives` says that of an evaluation.
-/

import BitLang.Proofs.Bindings.Merge
import BitLang.Proofs.Eval.Chains
import BitLang.Proofs.Eval.Soundness

namespace BitLang

namespace Eval

variable {limit : Int}

/-! ## Evaluations that come to a value at any time -/

/-- Whatever work was done before, the evaluation comes to the value. -/
def Gives {α : Type} (x : Eval α) (a : α) : Prop :=
  ∀ tally, ∃ later, x.run tally = .value a later

namespace Gives

variable {α β : Type}

theorem pure (a : α) : (Pure.pure a : Eval α).Gives a := fun tally => ⟨tally, rfl⟩

theorem bind {x : Eval α} {f : α → Eval β} {a : α} {b : β} (hx : x.Gives a)
    (hf : (f a).Gives b) : (x >>= f).Gives b := by
  intro tally
  obtain ⟨mid, hrun⟩ := hx tally
  obtain ⟨later, hnext⟩ := hf mid
  refine ⟨later, ?_⟩
  rw [run_bind, hrun]
  exact hnext

theorem enter {depth : Nat} (h : (depth : Int) ≤ limit) (pos : Position) :
    (enter limit depth pos).Gives () :=
  fun tally => ⟨_, run_enter_of_le h pos tally⟩

theorem call {depth : Nat} (h : (depth : Int) < limit) (pos : Position) :
    (call limit depth pos).Gives () :=
  fun tally => ⟨_, run_call_of_lt h pos tally⟩

end Gives

/-- A task comes to a value if it does with some amount of fuel. -/
theorem run_settled_eq_value_iff {task : Task} {v : Value} {tally later : Tally} :
    (settled Task.plan limit task).run tally = .value v later ↔
      ∃ fuel, (Task.run limit fuel task).run tally = .value v later := by
  simp only [← runBy_plan]
  constructor
  · intro h
    obtain ⟨fuel, hfuel⟩ := exists_run_of_settled (h ▸ Outcome.value_ne_outOfFuel v later)
    exact ⟨fuel, hfuel.trans h⟩
  · rintro ⟨fuel, hfuel⟩
    rw [settled_of_ended (hfuel ▸ Outcome.value_ne_outOfFuel v later), hfuel]

/-- A task that has once come to a value comes to it at any time. -/
theorem gives_settled_of_run {task : Task} {v : Value} {tally later : Tally}
    (h : (settled Task.plan limit task).run tally = .value v later) :
    (settled Task.plan limit task).Gives v := by
  obtain ⟨fuel, hfuel⟩ := run_settled_eq_value_iff.mp h
  intro other
  obtain ⟨after, hafter⟩ := Task.run_value_of_run_value hfuel other
  exact ⟨after, run_settled_eq_value_iff.mpr ⟨fuel, hafter⟩⟩

/-- What a well-formed task comes to is well-formed. -/
theorem madeOf_of_settled {W : Scope → Prop} (hW : Bindings.Kept W) {task : Task}
    (htask : task.WellFormed W) {v : Value} {tally later : Tally}
    (h : (settled Task.plan limit task).run tally = .value v later) : v.MadeOf W := by
  obtain ⟨fuel, hfuel⟩ := run_settled_eq_value_iff.mp h
  have hadmits := Contract.admits_run (c := soundness W) (Task.keeps_plan hW) limit fuel htask tally
  rw [hfuel] at hadmits
  exact hadmits

/-! ## Associative joins -/

/-- Values of one kind that are joined in an associative way; `wrap` makes values of their
contents and `P` says which contents occur. -/
structure Joinable {β : Type} (join : Value → Value → Eval Value) (wrap : β → Value)
    (op : β → β → β) (P : β → Prop) : Prop where
  present : ∀ a, (wrap a).isAbsent = false
  gives : ∀ a b, P a → P b → (join (wrap a) (wrap b)).Gives (wrap (op a b))
  closed : ∀ {a b}, P a → P b → P (op a b)
  assoc : ∀ {a b c}, P a → P b → P c → op (op a b) c = op a (op b c)

namespace Joinable

variable {β : Type} {call : Value → Eval Value} {join : Value → Value → Eval Value}
  {wrap : β → Value} {op : β → β → β} {P : β → Prop}

theorem closed_foldl (h : Joinable join wrap op P) {a : β} (ha : P a) {bs : List β}
    (hbs : ∀ b ∈ bs, P b) : P (bs.foldl op a) := by
  induction bs generalizing a with
  | nil => exact ha
  | cons b rest ih =>
      obtain ⟨hb, hrest⟩ := List.forall_mem_cons.mp hbs
      exact ih (h.closed ha hb) hrest

theorem foldl_assoc (h : Joinable join wrap op P) {a b : β} (ha : P a) (hb : P b) {bs : List β}
    (hbs : ∀ c ∈ bs, P c) : bs.foldl op (op a b) = op a (bs.foldl op b) := by
  induction bs generalizing b with
  | nil => rfl
  | cons c rest ih =>
      obtain ⟨hc, hrest⟩ := List.forall_mem_cons.mp hbs
      rw [List.foldl_cons, List.foldl_cons, h.assoc ha hb hc]
      exact ih (h.closed hb hc) hrest

/-- A fold that is under way goes on joining. -/
theorem fold_from (h : Joinable join wrap op P) {result : Value → β} {elements : List Value}
    (hcall : ∀ v ∈ elements, P (result v) ∧ (call v).Gives (wrap (result v))) {joined : β}
    (hjoined : P joined) :
    (fold call join (wrap joined) elements).Gives
      (wrap ((elements.map result).foldl op joined)) := by
  induction elements generalizing joined with
  | nil =>
      rw [fold, h.present]
      exact .pure _
  | cons element rest ih =>
      obtain ⟨⟨hresult, hgives⟩, hrest⟩ := List.forall_mem_cons.mp hcall
      rw [fold, h.present]
      exact hgives.bind ((h.gives joined _ hjoined hresult).bind
        (ih hrest (h.closed hjoined hresult)))

/-- The first result starts the fold. -/
theorem fold_cons (h : Joinable join wrap op P) {result : Value → β} {element : Value}
    {rest : List Value}
    (hcall : ∀ v ∈ element :: rest, P (result v) ∧ (call v).Gives (wrap (result v))) :
    (fold call join .absent (element :: rest)).Gives
      (wrap ((rest.map result).foldl op (result element))) := by
  obtain ⟨⟨hresult, hgives⟩, hrest⟩ := List.forall_mem_cons.mp hcall
  rw [fold]
  exact hgives.bind (h.fold_from hrest hresult)

/-- Two lists may be folded one by one, and what they come to joined. -/
theorem fold_append (h : Joinable join wrap op P) {result : Value → β} {xs ys : List Value}
    (hxs : xs ≠ []) (hys : ys ≠ [])
    (hcall : ∀ v ∈ xs ++ ys, P (result v) ∧ (call v).Gives (wrap (result v))) :
    ∃ a b, P a ∧ P b ∧ (fold call join .absent xs).Gives (wrap a) ∧
      (fold call join .absent ys).Gives (wrap b) ∧
      (fold call join .absent (xs ++ ys)).Gives (wrap (op a b)) := by
  obtain ⟨x, xs, rfl⟩ := List.exists_cons_of_ne_nil hxs
  obtain ⟨y, ys, rfl⟩ := List.exists_cons_of_ne_nil hys
  obtain ⟨hfirst, hsecond⟩ := List.forall_mem_append.mp hcall
  have hresults {elements : List Value}
      (helements : ∀ v ∈ elements, P (result v) ∧ (call v).Gives (wrap (result v))) :
      ∀ b ∈ elements.map result, P b := by
    intro b hmem
    obtain ⟨v, hv, rfl⟩ := List.mem_map.mp hmem
    exact (helements v hv).1
  obtain ⟨⟨hx, -⟩, hrestx⟩ := List.forall_mem_cons.mp hfirst
  obtain ⟨⟨hy, -⟩, hresty⟩ := List.forall_mem_cons.mp hsecond
  have ha := h.closed_foldl hx (hresults hrestx)
  refine ⟨_, _, ha, h.closed_foldl hy (hresults hresty), h.fold_cons hfirst,
    h.fold_cons hsecond, ?_⟩
  rw [List.cons_append] at hcall ⊢
  have hwhole := h.fold_cons hcall
  rw [List.map_append, List.map_cons, List.foldl_append, List.foldl_cons,
    h.foldl_assoc ha hy (hresults hresty)] at hwhole
  exact hwhole

end Joinable

end Eval

open Eval

namespace BitSeq

theorem append_assoc {a b c : BitSeq} (ha : a.Canonical) (hb : b.Canonical) (hc : c.Canonical) :
    a ++ b ++ c = a ++ (b ++ c) := by
  rw [append_eq_ofList (ha.append hb) hc, append_eq_ofList ha (hb.append hc),
    append_eq_ofList ha hb, append_eq_ofList hb hc, toList_ofList, toList_ofList,
    List.append_assoc]

/-- Joining sequences onto a first one appends all their bits. -/
theorem foldl_append_eq_ofList {a : BitSeq} (ha : a.Canonical) {bs : List BitSeq}
    (hbs : ∀ b ∈ bs, b.Canonical) :
    bs.foldl (· ++ ·) a = ofList (a.toList ++ bs.flatMap toList) := by
  induction bs generalizing a with
  | nil =>
      rw [List.flatMap_nil, List.append_nil]
      exact ha.ofList_toList.symm
  | cons b rest ih =>
      obtain ⟨hb, hrest⟩ := List.forall_mem_cons.mp hbs
      rw [List.foldl_cons, ih (ha.append hb) hrest, append_eq_ofList ha hb, toList_ofList,
        List.flatMap_cons, List.append_assoc]

end BitSeq

namespace Value

section Kinds

variable (limit : Int) (pos : Position) (depth : Nat)

theorem gives_combineAt_bits (a b : BitSeq) :
    ((bits a).combineAt limit pos depth (bits b)).Gives (bits (a ++ b)) := by
  have hrule : ruleOf (bits a) (bits b) = .result (.ok (bits (a ++ b))) := rfl
  rw [combineAt_of_ruleOf hrule]
  exact .pure _

theorem gives_combineAt_set (s t : Scope) :
    ((set s).combineAt limit pos depth (set t)).Gives (set (s.merge t)) := by
  have hrule : ruleOf (set s) (set t) = .result (.ok (set (s.merge t))) := rfl
  rw [combineAt_of_ruleOf hrule]
  exact .pure _

theorem joinable_bits : Joinable (fun a b => a.combineAt limit pos depth b) bits (· ++ ·)
    BitSeq.Canonical where
  present _ := rfl
  gives a b _ _ := gives_combineAt_bits limit pos depth a b
  closed := BitSeq.Canonical.append
  assoc := BitSeq.append_assoc

theorem joinable_sets : Joinable (fun a b => a.combineAt limit pos depth b) set Bindings.merge
    Bindings.Indexed where
  present _ := rfl
  gives s t _ _ := gives_combineAt_set limit pos depth s t
  closed := Bindings.Indexed.merge
  assoc ha hb hc := ha.merge_assoc hb hc

/-! ## Folding a function over values -/

/-- What folding a function over values on a level comes to: the results of its calls, joined from
left to right. -/
def foldAt (f : Value) (elements : List Value) : Eval Value :=
  fold (fun v => f.combineAt limit pos depth v) (fun a b => a.combineAt limit pos depth b) .absent
    elements

end Kinds

variable {limit : Int} {pos : Position} {depth : Nat} {scope : Scope} {pattern : BitSeq}
  {body : Expr}

theorem follow_ofRule_fold (elements : List Value) :
    (Plan.ofRule pos depth (.fold scope pattern body elements)).follow limit
        (settled Task.plan limit) =
      (function scope pattern body).foldAt limit pos depth elements := by
  have hcall : (fun v => (function scope pattern body).combineAt limit pos depth v) = fun v =>
      call limit depth pos >>= fun _ =>
        settled Task.plan limit (.expr body (scope.insert pattern v) (depth + 1)) := by
    funext v
    rw [combineAt_function, Expr.evalAt_eq_settled]
  have hjoin : (fun a b => Value.combineAt limit pos depth a b) =
      fun a b => settled Task.plan limit (.combine a b pos depth) := by
    funext a b
    rw [combineAt_eq_settled]
  rw [Plan.ofRule, follow_fold, foldAt, hcall, hjoin]

/-- A bit sequence next to a function is folded over its bits. -/
theorem combineAt_bits_function (b : BitSeq) :
    (bits b).combineAt limit pos depth (function scope pattern body) =
      (function scope pattern body).foldAt limit pos depth
        (b.toList.map fun bit => nat bit.toNat) := by
  rw [combineAt_eq_settled, settled_eq_follow, Task.plan_combine, ← follow_ofRule_fold]
  rfl

/-- A set next to a function is folded over its values, in the order of their keys. -/
theorem combineAt_set_function (s : Scope) :
    (set s).combineAt limit pos depth (function scope pattern body) =
      (function scope pattern body).foldAt limit pos depth s.values := by
  rw [combineAt_eq_settled, settled_eq_follow, Task.plan_combine, ← follow_ofRule_fold]
  rfl

/-- The calls of a function on all the values come to values of one kind. -/
def CallsMake {β : Type} (wrap : β → Value) (limit : Int) (pos : Position) (depth : Nat)
    (f : Value) (elements : List Value) : Prop :=
  ∀ v ∈ elements, ∃ b later, (f.combineAt limit pos depth v).run ⟨0, 0⟩ = .value (wrap b) later

/-- A function folded over two lists comes to `u` and `v`, and what these are joined to is what it
comes to when it is folded over the one list behind the other. -/
structure FoldsInParts (limit : Int) (pos : Position) (depth : Nat) (f : Value)
    (xs ys : List Value) (u v joined : Value) : Prop where
  first : (f.foldAt limit pos depth xs).Gives u
  second : (f.foldAt limit pos depth ys).Gives v
  join : (u.combineAt limit pos depth v).Gives joined
  whole : (f.foldAt limit pos depth (xs ++ ys)).Gives joined

/-- What combining valid values comes to is valid. -/
theorem valid_of_combineAt {left right v : Value} (hleft : left.Valid) (hright : right.Valid)
    {tally later : Tally}
    (h : (left.combineAt limit pos depth right).run tally = .value v later) : v.Valid := by
  have htask : (Task.combine left right pos depth).WellFormed Bindings.Indexed := ⟨hleft, hright⟩
  rw [combineAt_eq_settled] at h
  exact madeOf_of_settled Bindings.kept_indexed htask h

theorem gives_of_combineAt {left right v : Value} {tally later : Tally}
    (h : (left.combineAt limit pos depth right).run tally = .value v later) :
    (left.combineAt limit pos depth right).Gives v := by
  rw [combineAt_eq_settled] at h ⊢
  exact gives_settled_of_run h

/-- A fold may be carried out in parts if all calls come to values of a kind that is joined
associatively. -/
theorem exists_foldsInParts {β : Type} [Inhabited β] {wrap : β → Value} {op : β → β → β}
    {P : β → Prop} (h : Joinable (fun a b => a.combineAt limit pos depth b) wrap op P)
    (hP : ∀ b, (wrap b).Valid → P b) {f : Value} (hf : f.Valid) {xs ys : List Value}
    (hxs : xs ≠ []) (hys : ys ≠ []) (hvalid : ∀ v ∈ xs ++ ys, v.Valid)
    (hcalls : f.CallsMake wrap limit pos depth (xs ++ ys)) :
    ∃ a b, f.FoldsInParts limit pos depth xs ys (wrap a) (wrap b) (wrap (op a b)) := by
  choose! result later hrun using hcalls
  have hcall : ∀ v ∈ xs ++ ys, P (result v) ∧
      (f.combineAt limit pos depth v).Gives (wrap (result v)) := by
    intro v hv
    constructor
    · exact hP _ (valid_of_combineAt hf (hvalid v hv) (hrun v hv))
    · exact gives_of_combineAt (hrun v hv)
  obtain ⟨a, b, ha, hb, hfirst, hsecond, hwhole⟩ := h.fold_append hxs hys hcall
  exact ⟨a, b, hfirst, hsecond, h.gives a b ha hb, hwhole⟩

/-! ## The identity -/

/-- What `x: $ x` comes to under a scope, for any name `x`: a function that looks up the name it
binds. -/
def identity (scope : Scope) (name : BitSeq) (whole place operand : Span) : Value :=
  function scope name (.combine whole (.scope place) (.literal operand name))

/-- The body takes the level below the call, and its two operands the one below that. -/
theorem gives_identity (hscope : scope.Indexed) (hdepth : (depth : Int) + 2 ≤ limit)
    (name : BitSeq) (whole place operand : Span) (v : Value) :
    ((identity scope name whole place operand).combineAt limit pos depth v).Gives v := by
  have hlevel : ((depth + 1 + 1 : Nat) : Int) ≤ limit := by omega
  have hplace : (settled Task.plan limit
      (.expr (.scope place) (scope.insert name v) (depth + 1 + 1))).Gives
        (set (scope.insert name v)) := by
    rw [settled_eq_follow]
    exact (Gives.enter hlevel _).bind (.pure _)
  have hoperand : (settled Task.plan limit
      (.expr (.literal operand name) (scope.insert name v) (depth + 1 + 1))).Gives (bits name) := by
    rw [settled_eq_follow]
    exact (Gives.enter hlevel _).bind (.pure _)
  have hlookup : (settled Task.plan limit (.combine (set (scope.insert name v)) (bits name)
      whole.start (depth + 1 + 1))).Gives v := by
    have hrule : ruleOf (set (scope.insert name v)) (bits name) =
        .result (.ok (((scope.insert name v).get? name).getD null)) := rfl
    rw [← combineAt_eq_settled, combineAt_of_ruleOf hrule, hscope.get?_insert_self]
    exact .pure _
  rw [identity, combineAt_function, Expr.evalAt_combine, loop_combine,
    loop_of_not_isCombine _ _ _ rfl]
  exact (Gives.call (by omega) pos).bind ((Gives.enter (by omega) _).bind
    (hplace.bind (hoperand.bind hlookup)))

theorem toList_encode_toNat (bit : Bool) : (BitSeq.encode bit.toNat).toList = [bit] := by
  cases bit <;> rfl

/-- Folding the identity over the bits of a sequence gives the sequence back. -/
theorem gives_combineAt_identity {b : BitSeq} (hb : b.Canonical) (hne : b ≠ .empty)
    (hscope : scope.Indexed) (hdepth : (depth : Int) + 2 ≤ limit) (name : BitSeq)
    (whole place operand : Span) :
    ((bits b).combineAt limit pos depth (identity scope name whole place operand)).Gives
      (bits b) := by
  obtain ⟨first, rest, hbits⟩ : ∃ first rest, b.toList = first :: rest := by
    apply List.exists_cons_of_ne_nil
    intro hnil
    apply hne
    rw [← hb.ofList_toList, hnil]
    rfl
  -- what each call comes to is the bit it was made with, as a sequence of its own
  have hcontents := Function.leftInverse_invFun (f := bits) fun _ _ h => bits.inj h
  have hcall : ∀ v ∈ nat first.toNat :: rest.map fun bit => nat bit.toNat,
      (Function.invFun bits v).Canonical ∧
        ((identity scope name whole place operand).combineAt limit pos depth v).Gives
          (bits (Function.invFun bits v)) := by
    intro v hv
    obtain ⟨bit, rfl⟩ : ∃ bit : Bool, v = nat bit.toNat := by
      rcases List.mem_cons.mp hv with rfl | hmem
      · exact ⟨first, rfl⟩
      · obtain ⟨bit, -, rfl⟩ := List.mem_map.mp hmem
        exact ⟨bit, rfl⟩
    rw [nat, hcontents]
    exact ⟨BitSeq.canonical_encode _, gives_identity hscope hdepth name whole place operand _⟩
  have hresults : (rest.map fun bit => nat bit.toNat).map (Function.invFun bits) =
      rest.map fun bit => BitSeq.encode bit.toNat := by
    rw [List.map_map]
    exact List.map_congr_left fun bit _ => hcontents _
  have hsingle : ∀ c ∈ rest.map fun bit => BitSeq.encode bit.toNat, c.Canonical := by
    intro c hmem
    obtain ⟨bit, -, rfl⟩ := List.mem_map.mp hmem
    exact BitSeq.canonical_encode _
  have hjoined : (rest.map fun bit => BitSeq.encode bit.toNat).foldl (· ++ ·)
      (BitSeq.encode first.toNat) = b := by
    rw [BitSeq.foldl_append_eq_ofList (BitSeq.canonical_encode _) hsingle, List.flatMap_map]
    simp only [toList_encode_toNat, List.flatMap_singleton', List.singleton_append]
    rw [← hbits, hb.ofList_toList]
  have hfold := (joinable_bits limit pos depth).fold_cons hcall
  rw [hresults, nat, hcontents, hjoined] at hfold
  rw [identity, combineAt_bits_function, hbits]
  exact hfold

/-- Folding a function over two lists and joining what it comes to is folding it over the one list
behind the other, if its calls all come to bit sequences or all to sets; joining is concatenation
or merging.  The lists may be the bits of bit sequences or the values of sets, as these are what a
function next to them is folded over.  The identity, where the limit admits its calls, gives back
the bits that it is folded over. -/
theorem foldAt_append (limit : Int) (pos : Position) (depth : Nat) :
    (∀ (scope : Scope) (pattern : BitSeq) (body : Expr) (xs ys : List Value),
      (function scope pattern body).Valid → xs ≠ [] → ys ≠ [] → (∀ v ∈ xs ++ ys, v.Valid) →
      ((function scope pattern body).CallsMake bits limit pos depth (xs ++ ys) →
        ∃ a b, (function scope pattern body).FoldsInParts limit pos depth xs ys (bits a) (bits b)
          (bits (a ++ b))) ∧
      ((function scope pattern body).CallsMake set limit pos depth (xs ++ ys) →
        ∃ s t, (function scope pattern body).FoldsInParts limit pos depth xs ys (set s) (set t)
          (set (s.merge t)))) ∧
    (∀ (scope : Scope) (pattern : BitSeq) (body : Expr) (b : BitSeq),
      (bits b).combineAt limit pos depth (function scope pattern body) =
        (function scope pattern body).foldAt limit pos depth
          (b.toList.map fun bit => nat bit.toNat)) ∧
    (∀ (scope : Scope) (pattern : BitSeq) (body : Expr) (s : Scope),
      (set s).combineAt limit pos depth (function scope pattern body) =
        (function scope pattern body).foldAt limit pos depth s.values) ∧
    ∀ (b name : BitSeq) (scope : Scope) (whole place operand : Span), b.Canonical →
      b ≠ .empty → scope.Indexed → (depth : Int) + 2 ≤ limit →
      ((bits b).combineAt limit pos depth (identity scope name whole place operand)).Gives
        (bits b) := by
  refine ⟨?_, fun _ _ _ => combineAt_bits_function, fun _ _ _ => combineAt_set_function, ?_⟩
  · intro scope pattern body xs ys hf hxs hys hvalid
    constructor
    · apply exists_foldsInParts (joinable_bits limit pos depth) _ hf hxs hys hvalid
      intro b hb
      exact madeOf_bits_iff.mp hb
    · apply exists_foldsInParts (joinable_sets limit pos depth) _ hf hxs hys hvalid
      intro s hs
      exact (madeOf_set_iff.mp hs).wellFormed
  · intro b name scope whole place operand hb hne hscope hdepth
    exact gives_combineAt_identity hb hne hscope hdepth name whole place operand

/-- The identity may be folded in parts over two bits, and over two sets. -/
theorem foldAt_append_identity :
    ∃ f : Value, f.Valid ∧
      f.CallsMake bits 10 ⟨0, 1, 1⟩ 3 ([nat 1] ++ [nat 0]) ∧
      (∃ a b, f.FoldsInParts 10 ⟨0, 1, 1⟩ 3 [nat 1] [nat 0] (bits a) (bits b) (bits (a ++ b))) ∧
      f.CallsMake set 10 ⟨0, 1, 1⟩ 3 ([set .empty] ++ [set .empty]) ∧
      (∃ s t, f.FoldsInParts 10 ⟨0, 1, 1⟩ 3 [set .empty] [set .empty] (set s) (set t)
        (set (s.merge t))) ∧
      ((nat 6).combineAt 10 ⟨0, 1, 1⟩ 3 f).Gives (nat 6) := by
  let f := identity .empty (.encode 5) default default default
  have hempty : Bindings.Indexed (.empty : Scope) := Bindings.kept_indexed.empty
  have hvalid : f.Valid := madeOf_function_iff.mpr
    ⟨Bindings.sound_empty Bindings.kept_indexed _, BitSeq.canonical_encode 5,
      trivial, trivial, BitSeq.canonical_encode 5⟩
  have hset : (set .empty).Valid :=
    madeOf_set_iff.mpr (Bindings.sound_empty Bindings.kept_indexed _)
  have hcall (v : Value) : (f.combineAt 10 ⟨0, 1, 1⟩ 3 v).Gives v :=
    gives_identity hempty (by decide) (.encode 5) default default default v
  have hbits : f.CallsMake bits 10 ⟨0, 1, 1⟩ 3 ([nat 1] ++ [nat 0]) := by
    intro v hv
    rcases List.mem_pair.mp hv with rfl | rfl
    · exact ⟨_, hcall _ ⟨0, 0⟩⟩
    · exact ⟨_, hcall _ ⟨0, 0⟩⟩
  have hsets : f.CallsMake set 10 ⟨0, 1, 1⟩ 3 ([set .empty] ++ [set .empty]) := by
    intro v hv
    rcases List.mem_pair.mp hv with rfl | rfl
    · exact ⟨_, hcall _ ⟨0, 0⟩⟩
    · exact ⟨_, hcall _ ⟨0, 0⟩⟩
  obtain ⟨happend, -, -, hidentity⟩ := foldAt_append 10 ⟨0, 1, 1⟩ 3
  refine ⟨f, hvalid, hbits, ?_, hsets, ?_, ?_⟩
  · apply (happend _ _ _ _ _ hvalid (by decide) (by decide) ?_).1 hbits
    intro v hv
    rcases List.mem_pair.mp hv with rfl | rfl
    · exact madeOf_nat 1
    · exact madeOf_nat 0
  · apply (happend _ _ _ _ _ hvalid (by decide) (by decide) ?_).2 hsets
    intro v hv
    rcases List.mem_pair.mp hv with rfl | rfl
    · exact hset
    · exact hset
  · exact hidentity _ _ _ _ _ _ (BitSeq.canonical_encode 6) (by decide) hempty (by decide)

-- the identity as a source, folded over the three bits of six
example : ∃ e, Expr.parse (utf8 "6 (x: $ x)") = .ok e ∧
    e.eval 10 .empty = .value (nat 6) ⟨3, 3⟩ :=
  ⟨_, rfl, by cbv⟩

end Value

end BitLang
