/-
# Evaluation, index by index

The evaluator is given here once more with every index it uses spelled out: a value is read
at the place that an index of keys tells, bits are read and written at their positions, and
a window is taken between its bounds.  Wherever an index lies outside of what it is used on,
this evaluator stops without any outcome.

From a tree with canonical literals, under a valid scope, that never happens: the outcome is
that of evaluation, with any amount of fuel and within any limit.
-/

import BitLang.Proofs.BitSeq.Indices
import BitLang.Proofs.Eval.Soundness

namespace BitLang

/-! ## Maps -/

namespace Bindings

variable {α : Type}

/-- The value bound to a key, read at the place that the index tells. -/
def lookup? (s : Bindings α) (key : BitSeq) : Option (Option α) :=
  match s.index[key]? with
  | none => some none
  | some i => s.entries[i]?.map fun entry => some entry.2

/-- Binds a key, at the place that the index tells if it does. -/
def bind? (s : Bindings α) (key : BitSeq) (value : α) : Option (Bindings α) :=
  match s.index[key]? with
  | none => some ⟨s.entries.push (key, value), s.index.insert key s.entries.size⟩
  | some i =>
    if i < s.entries.size then some ⟨s.entries.setIfInBounds i (key, value), s.index⟩ else none

/-- Binds entries one after another. -/
def bindAll? (s : Bindings α) : List (BitSeq × α) → Option (Bindings α)
  | [] => some s
  | (key, value) :: rest => (s.bind? key value).bind fun s => s.bindAll? rest

/-- The entries, read one by one. -/
def entries? (s : Bindings α) : Option (List (BitSeq × α)) :=
  readFrom? (fun i => s.entries[i]?) 0 s.size

/-- Both maps together. -/
def merge? (s other : Bindings α) : Option (Bindings α) :=
  if other.size = 0 then some s
  else if s.size = 0 then some other
  else other.entries?.bind s.bindAll?

theorem entries?_eq (s : Bindings α) : s.entries? = some s.toList := by
  have hsize : 0 + s.size ≤ s.toList.length := Nat.le_of_eq (Nat.zero_add _)
  refine (readFrom?_eq (fun i => Array.getElem?_toList.symm) hsize).trans ?_
  exact congrArg some List.take_length

namespace Indexed

variable {s other : Bindings α}

/-- An index points at an entry. -/
theorem lt_size (hs : s.Indexed) {key : BitSeq} {i : Nat} (h : s.index[key]? = some i) :
    i < s.entries.size := by
  obtain ⟨hi, -⟩ := List.getElem?_eq_some_iff.mp ((hs.index_eq_some_iff key i).mp h)
  rw [size_eq_length_keys]
  exact hi

theorem lookup?_eq (hs : s.Indexed) (key : BitSeq) : s.lookup? key = some (s.get? key) := by
  unfold lookup? get?
  cases h : s.index[key]? with
  | none => rfl
  | some i =>
      simp only [Array.getElem?_eq_getElem (hs.lt_size h)]
      rfl

-- an index that points behind the entries is not taken for a missing key
example : (⟨#[], Bindings.indexOf [.empty]⟩ : Bindings Nat).lookup? .empty = none := rfl

theorem bind?_eq (hs : s.Indexed) (key : BitSeq) (value : α) :
    s.bind? key value = some (s.insert key value) := by
  unfold bind? Bindings.insert
  cases h : s.index[key]? with
  | none => rfl
  | some i => exact if_pos (hs.lt_size h)

theorem bindAll?_eq (hs : s.Indexed) (entries : List (BitSeq × α)) :
    s.bindAll? entries = some (s.insertAll entries) := by
  induction entries generalizing s with
  | nil => rfl
  | cons entry rest ih =>
      rw [bindAll?, hs.bind?_eq]
      exact ih (hs.insert entry.1 entry.2)

theorem merge?_eq (hs : s.Indexed) (other : Bindings α) :
    s.merge? other = some (s.merge other) := by
  unfold merge? Bindings.merge
  split
  · rfl
  · split
    · rfl
    · rw [entries?_eq, Option.bind_some, hs.bindAll?_eq]

end Indexed

end Bindings

/-! ## The evaluator -/

/-- An evaluation that stops without an outcome where an index is out of range. -/
def Checked (α : Type) := Tally → Option (Outcome α)

namespace Checked

variable {α β : Type}

/-- The outcome, given the work done before. -/
def run (x : Checked α) (tally : Tally) : Option (Outcome α) := x tally

instance : Monad Checked where
  pure a := fun tally => some (.value a tally)
  bind x f := fun tally =>
    match x.run tally with
    | none => none
    | some (.value a tally) => (f a).run tally
    | some (.failure error tally) => some (.failure error tally)
    | some .outOfFuel => some .outOfFuel

/-- An evaluation that uses no index. -/
def ofEval (x : Eval α) : Checked α := fun tally => some (x.run tally)

/-- Something that is found by its index, if that is in range. -/
def access (x : Option α) : Checked α := fun tally => x.map fun a => .value a tally

/-- A natural number as a value. -/
def nat (x : Nat) : Checked Value := do
  let b ← access (BitSeq.encode? x)
  pure (.bits b)

/-- The integer that a bound of a range denotes. -/
def bound (range : Scope) (i : Nat) (pos : Position) : Checked Nat := do
  let key ← access (BitSeq.encode? i)
  match ← access (range.lookup? key) with
  | none => ofEval (Eval.fail pos (.missingBound i))
  | some (.bits b) => access b.decode?
  | some v => ofEval (Eval.fail pos (.boundNotBits i v.kind))

/-- The window of a bit sequence between the bounds `0` and `1` of a range. -/
def slice (b : BitSeq) (range : Scope) (pos : Position) : Checked Value := do
  let start ← bound range 0 pos
  let stop ← bound range 1 pos
  if stop < start ∨ b.len < stop then ofEval (Eval.fail pos (.outOfRange start stop b.len))
  else
    let window ← access (b.slice? start stop)
    pure (.bits window)

/-- The keys of a set, numbered in order. -/
def keysOf (s : Scope) : Checked Value := do
  let entries ← access s.entries?
  let numbered ← access ((entries.map Prod.fst).zipIdx.mapM fun (key, i) =>
    (BitSeq.encode? i).map fun number => (number, .bits key))
  let keys ← access (Bindings.empty.bindAll? numbered)
  pure (.set keys)

/-- Calls a function on each element and joins the results. -/
def fold (call : Value → Checked Value) (join : Value → Value → Checked Value) :
    (joined : Value) → List Value → Checked Value
  | joined, [] => pure (if joined.isAbsent then .null else joined)
  | joined, element :: rest => do
    let result ← call element
    if joined.isAbsent then fold call join result rest
    else
      let joined ← join joined result
      fold call join joined rest

/-- Evaluates the entries of a set onto `done`. -/
def entries (eval : Expr → Checked Value) : (done : Scope) → List (Expr × Expr) → Checked Value
  | done, [] => pure (.set done)
  | done, (key, value) :: rest => do
    match ← eval key with
    | .bits b =>
      let v ← eval value
      let done ← access (done.bind? b v)
      entries eval done rest
    | k => ofEval (Eval.fail key.pos (.keyNotBits k.kind))

/-- Evaluates further operands of a chain and combines each with what came before. -/
def chain (eval : Expr → Checked Value) (join : Position → Value → Value → Checked Value) :
    (left : Value) → List (Span × Expr) → Checked Value
  | left, [] => pure left
  | left, (span, operand) :: rest => do
    let right ← eval operand
    let left ← join span.start left right
    chain eval join left rest

mutual

/-- The value of an expression under a scope. -/
def expr (limit : Int) : (fuel : Nat) → (e : Expr) → (scope : Scope) → (depth : Nat) →
    Checked Value
  | 0, _, _, _ => ofEval Eval.exhausted
  | fuel + 1, e, scope, depth => do
    ofEval (Eval.enter limit depth e.pos)
    match e with
    | .absent => pure .null
    | .literal _ b => pure (.bits b)
    | .scope _ => pure (.set scope)
    | .set _ es => entries (fun e => expr limit fuel e scope (depth + 1)) .empty es
    | .function span pattern body =>
      match ← expr limit fuel pattern scope (depth + 1) with
      | .bits b => pure (.function scope b body)
      | p => ofEval (Eval.fail span.start (.patternNotBits p.kind))
    | .combine span left right =>
      let (head, operands) := left.spine [(span, right)]
      let first ← expr limit fuel head scope (depth + 1)
      chain (fun e => expr limit fuel e scope (depth + 1))
        (fun pos a b => combine limit fuel a b pos (depth + 1)) first operands

/-- The operator applied to two values. -/
def combine (limit : Int) : (fuel : Nat) → (left right : Value) → (pos : Position) →
    (depth : Nat) → Checked Value
  | 0, _, _, _, _ => ofEval Eval.exhausted
  | fuel + 1, left, right, pos, depth =>
    match left, right with
    | .null, _ => nat right.kind.code
    | .function scope pattern body, _ => do
      ofEval (Eval.call limit depth pos)
      let inner ← access (scope.bind? pattern right)
      expr limit fuel body inner (depth + 1)
    | .bits a, .bits b => do
      let joined ← access (a.append? b)
      pure (.bits joined)
    | .bits a, .set range => slice a range pos
    | .bits a, .function scope pattern body => do
      let bits ← access a.toList?
      let elements ← access (bits.mapM fun bit => (BitSeq.encode? bit.toNat).map Value.bits)
      fold
        (fun v => do
          ofEval (Eval.call limit depth pos)
          let inner ← access (scope.bind? pattern v)
          expr limit fuel body inner (depth + 1))
        (fun a b => combine limit fuel a b pos depth) .absent elements
    | .bits a, .null => nat a.len
    | .set a, .bits b => do
      let found ← access (a.lookup? b)
      pure (found.getD .null)
    | .set a, .set b => do
      let merged ← access (a.merge? b)
      pure (.set merged)
    | .set a, .function scope pattern body => do
      let entries ← access a.entries?
      fold
        (fun v => do
          ofEval (Eval.call limit depth pos)
          let inner ← access (scope.bind? pattern v)
          expr limit fuel body inner (depth + 1))
        (fun a b => combine limit fuel a b pos depth) .absent (entries.map Prod.snd)
    | .set a, .null => keysOf a
    | _, _ => ofEval (Eval.fail pos (.noRule left.kind right.kind))

end

/-! ## No index is out of range -/

/-- The checked evaluation comes to the same outcome as the other, and a value it comes to
has a property. -/
def Follows (P : α → Prop) (x : Checked α) (y : Eval α) : Prop :=
  ∀ tally, x.run tally = some (y.run tally) ∧ ∀ a later, y.run tally = .value a later → P a

section Follows

variable {P : α → Prop} {Q : β → Prop}

theorem follows_pure {a : α} (h : P a) : Follows P (pure a) (pure a : Eval α) :=
  fun _ => ⟨rfl, fun _ _ hvalue => by cases hvalue; exact h⟩

theorem follows_ofEval (x : Eval α) : Follows (fun _ => True) (ofEval x) x :=
  fun _ => ⟨rfl, fun _ _ _ => trivial⟩

theorem follows_fail (pos : Position) (cause : EvalError.Cause) :
    Follows P (ofEval (Eval.fail pos cause)) (Eval.fail pos cause) :=
  fun _ => ⟨rfl, fun _ _ hvalue => nomatch hvalue⟩

theorem Follows.bind {x : Checked α} {y : Eval α} {f : α → Checked β} {g : α → Eval β}
    (hx : Follows P x y) (hf : ∀ a, P a → Follows Q (f a) (g a)) :
    Follows Q (x >>= f) (y >>= g) := by
  intro tally
  obtain ⟨hrun, hvalue⟩ := hx tally
  have hbind : (x >>= f).run tally = match x.run tally with
      | none => none
      | some (.value a tally) => (f a).run tally
      | some (.failure error tally) => some (.failure error tally)
      | some .outOfFuel => some .outOfFuel := rfl
  rw [hbind, hrun, Eval.run_bind]
  cases hy : y.run tally with
  | value a later => exact hf a (hvalue a later hy) later
  | failure error later => exact ⟨rfl, fun _ _ h => nomatch h⟩
  | outOfFuel => exact ⟨rfl, fun _ _ h => nomatch h⟩

theorem Follows.weaken {x : Checked α} {y : Eval α} (h : Follows P x y) :
    Follows (fun _ => True) x y :=
  fun tally => ⟨(h tally).1, fun _ _ _ => trivial⟩

/-- The values that evaluation comes to are valid. -/
theorem Follows.of_admits {x : Checked Value} {y : Eval Value}
    (h : Follows (fun _ => True) x y)
    (hadmits : ∀ tally, (Eval.soundness Bindings.Indexed).Admits (y.run tally)) :
    Follows Value.Valid x y := by
  refine fun tally => ⟨(h tally).1, fun v later hvalue => ?_⟩
  have hvalid := hadmits tally
  rw [hvalue] at hvalid
  exact hvalid

theorem access_some_bind (a : α) (f : α → Checked β) : (access (some a) >>= f) = f a := rfl

end Follows

/-! ### Operations on values -/

theorem nat_eq (x : Nat) : nat x = pure (.nat x) := by
  rw [nat, BitSeq.encode?_eq]
  rfl

theorem follows_bound {range : Scope} (hrange : range.IsScope Bindings.Indexed) (i : Nat)
    (pos : Position) :
    Follows (fun _ => True) (bound range i pos) (Eval.bound range i pos) := by
  unfold bound Eval.bound
  rw [BitSeq.encode?_eq, access_some_bind, hrange.wellFormed.lookup?_eq, access_some_bind]
  cases h : range.get? (.encode i) with
  | none => exact follows_fail _ _
  | some v =>
      cases v with
      | bits b =>
          have hb := Value.madeOf_bits_iff.mp (hrange.of_get? h)
          simp only [hb.decode?_eq]
          exact follows_pure trivial
      | absent | null | set | function => exact follows_fail _ _

theorem follows_slice {b : BitSeq} (hb : b.Canonical) {range : Scope}
    (hrange : range.IsScope Bindings.Indexed) (pos : Position) :
    Follows (fun _ => True) (slice b range pos) (Eval.slice b range pos) := by
  refine (follows_bound hrange 0 pos).bind fun start _ => ?_
  refine (follows_bound hrange 1 pos).bind fun stop _ => ?_
  split
  · exact follows_fail _ _
  · rw [hb.slice?_eq (by omega) (by omega), access_some_bind]
    exact follows_pure trivial

theorem keysOf_eq (s : Scope) : keysOf s = pure (Eval.keysOf s) := by
  rw [keysOf, s.entries?_eq, access_some_bind]
  simp only [BitSeq.encode?_eq, Option.map_some]
  have hnumbered : ((s.toList.map Prod.fst).zipIdx.mapM fun (key, i) =>
      some (BitSeq.encode i, Value.bits key)) =
      some (s.keys.zipIdx.map fun (key, i) => (.encode i, .bits key)) := List.mapM_pure
  rw [hnumbered, access_some_bind, Bindings.kept_indexed.empty.bindAll?_eq, access_some_bind]
  rfl

/-! ### Loops -/

section Loops

variable {eval? : Expr → Checked Value} {eval : Expr → Eval Value}
  {call? : Value → Checked Value} {call : Value → Eval Value}

theorem follows_entries
    (heval : ∀ e : Expr, e.Canonical → Follows Value.Valid (eval? e) (eval e)) {done : Scope}
    (hdone : done.IsScope Bindings.Indexed) {es : List (Expr × Expr)}
    (h : Expr.AllEntries Expr.LiteralCanonical es) :
    Follows (fun _ => True) (entries eval? done es) (Eval.entries eval done es) := by
  induction es generalizing done with
  | nil => exact follows_pure trivial
  | cons entry rest ih =>
      rcases entry with ⟨key, value⟩
      refine (heval key h.1).bind fun k hk => ?_
      cases hk with
      | bits hb =>
          refine (heval value h.2.1).bind fun v hv => ?_
          rw [hdone.wellFormed.bind?_eq, access_some_bind]
          exact ih (hdone.insert Bindings.kept_indexed hb hv) h.2.2
      | null | set | function => exact follows_fail _ _

theorem follows_chain {join? : Position → Value → Value → Checked Value}
    {join : Position → Value → Value → Eval Value}
    (heval : ∀ e : Expr, e.Canonical → Follows Value.Valid (eval? e) (eval e))
    (hjoin : ∀ (pos : Position) (a b : Value), a.Valid → b.Valid →
      Follows Value.Valid (join? pos a b) (join pos a b))
    {left : Value} (hleft : left.Valid) {operands : List (Span × Expr)}
    (h : ∀ operand ∈ operands, operand.2.Canonical) :
    Follows (fun _ => True) (chain eval? join? left operands)
      (Eval.chain eval join left operands) := by
  induction operands generalizing left with
  | nil => exact follows_pure trivial
  | cons operand rest ih =>
      obtain ⟨hoperand, hrest⟩ := List.forall_mem_cons.mp h
      refine (heval operand.2 hoperand).bind fun right hright => ?_
      exact (hjoin _ _ _ hleft hright).bind fun joined hjoined => ih hjoined hrest

theorem follows_fold {join? : Value → Value → Checked Value} {join : Value → Value → Eval Value}
    (hcall : ∀ v : Value, v.Valid → Follows Value.Valid (call? v) (call v))
    (hjoin : ∀ a b : Value, a.Valid → b.Valid → Follows Value.Valid (join? a b) (join a b))
    {joined : Value} (hjoined : joined = .absent ∨ joined.Valid) {elements : List Value}
    (h : ∀ v ∈ elements, v.Valid) :
    Follows (fun _ => True) (fold call? join? joined elements)
      (Eval.fold call join joined elements) := by
  induction elements generalizing joined with
  | nil => exact follows_pure trivial
  | cons element rest ih =>
      obtain ⟨helement, hrest⟩ := List.forall_mem_cons.mp h
      refine (hcall element helement).bind fun result hresult => ?_
      rcases hjoined with rfl | hjoined
      · exact ih (.inr hresult) hrest
      · simp only [hjoined.isAbsent_eq_false]
        exact (hjoin _ _ hjoined hresult).bind fun joined hjoined => ih (.inr hjoined) hrest

end Loops

/-! ### Tasks -/

/-- The checked evaluator at work on a task. -/
def carryOut (limit : Int) (fuel : Nat) : Eval.Task → Checked Value
  | .expr e scope depth => expr limit fuel e scope depth
  | .combine left right pos depth => combine limit fuel left right pos depth

/-- With a certain amount of fuel, no index is out of range. -/
def InRange (limit : Int) (fuel : Nat) : Prop :=
  ∀ task : Eval.Task, task.WellFormed Bindings.Indexed →
    Follows Value.Valid (carryOut limit fuel task) (task.run limit fuel)

section Tasks

variable {limit : Int} {fuel : Nat}

theorem InRange.call (ih : InRange limit fuel) {scope : Scope}
    (hscope : scope.IsScope Bindings.Indexed) {pattern : BitSeq} (hpattern : pattern.Canonical)
    {body : Expr} (hbody : body.Canonical) (pos : Position) (depth : Nat) (v : Value)
    (hv : v.Valid) :
    Follows Value.Valid
      (do
        ofEval (Eval.call limit depth pos)
        let inner ← access (scope.bind? pattern v)
        expr limit fuel body inner (depth + 1))
      (do
        Eval.call limit depth pos
        Eval.expr limit fuel body (scope.insert pattern v) (depth + 1)) := by
  refine (follows_ofEval _).bind fun _ _ => ?_
  rw [hscope.wellFormed.bind?_eq, access_some_bind]
  exact ih (.expr body _ _) ⟨hbody, hscope.insert Bindings.kept_indexed hpattern hv⟩

theorem InRange.fold (ih : InRange limit fuel) {scope : Scope}
    (hscope : scope.IsScope Bindings.Indexed) {pattern : BitSeq} (hpattern : pattern.Canonical)
    {body : Expr} (hbody : body.Canonical) (pos : Position) (depth : Nat) {elements : List Value}
    (h : ∀ v ∈ elements, v.Valid) :
    Follows (fun _ => True)
      (Checked.fold
        (fun v => do
          ofEval (Eval.call limit depth pos)
          let inner ← access (scope.bind? pattern v)
          expr limit fuel body inner (depth + 1))
        (fun a b => Checked.combine limit fuel a b pos depth) .absent elements)
      (Eval.fold
        (fun v => do
          Eval.call limit depth pos
          Eval.expr limit fuel body (scope.insert pattern v) (depth + 1))
        (fun a b => Eval.combine limit fuel a b pos depth) .absent elements) :=
  follows_fold (ih.call hscope hpattern hbody pos depth)
    (fun a b ha hb => ih (.combine a b pos depth) ⟨ha, hb⟩) (.inl rfl) h

/-- With one more unit of fuel, values are combined without an index out of range. -/
theorem InRange.combine_succ (ih : InRange limit fuel) {left right : Value} (hleft : left.Valid)
    (hright : right.Valid) (pos : Position) (depth : Nat) :
    Follows (fun _ => True) (Checked.combine limit (fuel + 1) left right pos depth)
      (Eval.combine limit (fuel + 1) left right pos depth) := by
  cases left with
  | absent => cases hleft
  | null =>
      simp only [Checked.combine, Eval.combine, nat_eq]
      exact follows_pure trivial
  | function scope pattern body =>
      obtain ⟨hscope, hpattern, hbody⟩ := Value.madeOf_function_iff.mp hleft
      simp only [Checked.combine, Eval.combine]
      exact (ih.call hscope hpattern hbody pos depth right hright).weaken
  | bits a =>
      have ha := Value.madeOf_bits_iff.mp hleft
      cases right with
      | absent => cases hright
      | null =>
          simp only [Checked.combine, Eval.combine, nat_eq]
          exact follows_pure trivial
      | bits b =>
          simp only [Checked.combine, Eval.combine,
            ha.append?_eq (Value.madeOf_bits_iff.mp hright), access_some_bind]
          exact follows_pure trivial
      | set range =>
          simp only [Checked.combine, Eval.combine]
          exact follows_slice ha (Value.madeOf_set_iff.mp hright) pos
      | function scope pattern body =>
          obtain ⟨hscope, hpattern, hbody⟩ := Value.madeOf_function_iff.mp hright
          have helements : (a.toList.mapM fun bit => some (Value.bits (.encode bit.toNat))) =
              some (a.toList.map fun bit => .nat bit.toNat) := List.mapM_pure
          simp only [Checked.combine, Eval.combine, ha.toList?_eq, access_some_bind,
            BitSeq.encode?_eq, Option.map_some]
          rw [helements, access_some_bind]
          refine ih.fold hscope hpattern hbody pos depth fun v hmem => ?_
          obtain ⟨bit, -, rfl⟩ := List.mem_map.mp hmem
          exact Value.madeOf_nat _
  | set a =>
      have ha := Value.madeOf_set_iff.mp hleft
      cases right with
      | absent => cases hright
      | null =>
          simp only [Checked.combine, Eval.combine, keysOf_eq]
          exact follows_pure trivial
      | bits b =>
          simp only [Checked.combine, Eval.combine, ha.wellFormed.lookup?_eq, access_some_bind]
          exact follows_pure trivial
      | set b =>
          simp only [Checked.combine, Eval.combine, ha.wellFormed.merge?_eq, access_some_bind]
          exact follows_pure trivial
      | function scope pattern body =>
          obtain ⟨hscope, hpattern, hbody⟩ := Value.madeOf_function_iff.mp hright
          simp only [Checked.combine, Eval.combine, a.entries?_eq, access_some_bind]
          exact ih.fold hscope hpattern hbody pos depth fun v hmem => ha.of_mem_values hmem

/-- With one more unit of fuel, an expression is evaluated without an index out of range. -/
theorem InRange.expr_succ (ih : InRange limit fuel) {e : Expr} (he : e.Canonical) {scope : Scope}
    (hscope : scope.IsScope Bindings.Indexed) (depth : Nat) :
    Follows (fun _ => True) (Checked.expr limit (fuel + 1) e scope depth)
      (Eval.expr limit (fuel + 1) e scope depth) := by
  have heval (e : Expr) (he : e.Canonical) : Follows Value.Valid
      (Checked.expr limit fuel e scope (depth + 1)) (Eval.expr limit fuel e scope (depth + 1)) :=
    ih (.expr e scope (depth + 1)) ⟨he, hscope⟩
  simp only [Checked.expr, Eval.expr]
  refine (follows_ofEval _).bind fun _ _ => ?_
  cases e with
  | absent | literal | scope => exact follows_pure trivial
  | set span es => exact follows_entries heval (Bindings.sound_empty Bindings.kept_indexed _) he.2
  | function span pattern body =>
      refine (heval pattern he.2.1).bind fun p hp => ?_
      cases hp with
      | bits hb => exact follows_pure trivial
      | null | set | function => exact follows_fail _ _
  | combine span left right =>
      have hspine := Expr.Canonical.spine he.2.1
        (List.forall_mem_singleton.mpr (show (span, right).2.Canonical from he.2.2))
      refine (heval _ hspine.1).bind fun first hfirst => ?_
      refine follows_chain heval (fun pos a b ha hb => ?_) hfirst hspine.2
      exact ih (.combine a b pos (depth + 1)) ⟨ha, hb⟩

/-- No index is out of range, with any amount of fuel. -/
theorem inRange (limit : Int) (fuel : Nat) : InRange limit fuel := by
  induction fuel with
  | zero =>
      intro task _ tally
      cases task <;> exact ⟨rfl, fun _ _ h => nomatch h⟩
  | succ fuel ih =>
      intro task htask
      have hsound : (Eval.soundness Bindings.Indexed).task task := htask
      have hadmits := Eval.Contract.admits_run (Eval.Task.keeps_plan Bindings.kept_indexed)
        limit (fuel + 1) hsound
      cases task with
      | expr e scope depth => exact (ih.expr_succ htask.1 htask.2 depth).of_admits hadmits
      | combine left right pos depth =>
          exact (ih.combine_succ htask.1 htask.2 pos depth).of_admits hadmits

end Tasks

end Checked

namespace Expr

/-- Under a valid scope and with canonical literals, evaluation comes to valid values only.
When it fails, it is for the kind of a key, the bounds of a window or the limit; that two
values have no rule does not occur.  On the way no index is out of range. -/
theorem eval_valid {e : Expr} (he : e.Canonical) {scope : Scope}
    (hscope : (Value.set scope).Valid) (limit : Int) :
    (∀ v tally, e.eval limit scope = .value v tally → v.Valid) ∧
    (∀ error tally, e.eval limit scope = .failure error tally →
      error.cause.class = .keyType ∨ error.cause.class = .sliceBounds ∨
        error.cause.class = .resourceExhausted) ∧
    ∀ fuel, (Checked.expr limit fuel e scope 0).run ⟨0, 0⟩ =
      some ((Eval.expr limit fuel e scope 0).run ⟨0, 0⟩) := by
  have hscope := Value.madeOf_set_iff.mp hscope
  have hadmits := admits_eval Bindings.kept_indexed he hscope limit
  refine ⟨fun v tally hvalue => ?_, fun error tally herror => ?_, fun fuel => ?_⟩
  · rw [hvalue] at hadmits
    exact hadmits
  · rw [herror] at hadmits
    have happlicable : error.cause.class ≠ .unsupportedCombination := hadmits
    cases hclass : error.cause.class with
    | unsupportedCombination => exact absurd hclass happlicable
    | keyType => exact .inl rfl
    | sliceBounds => exact .inr (.inl rfl)
    | resourceExhausted => exact .inr (.inr rfl)
  · exact (Checked.inRange limit fuel (.expr e scope 0) ⟨he, hscope⟩ ⟨0, 0⟩).1

/-- Joins the bits of a bound sequence one by one and takes a window of the result. -/
def windowOfBits : Expr :=
  let nowhere : Span := ⟨.none, .none⟩
  let number (x : Nat) : Expr := .literal nowhere (.encode x)
  let bound : Expr := .combine nowhere (.scope nowhere) (number 7)
  .combine nowhere (.combine nowhere bound (.function nowhere (number 7) bound))
    (.set nowhere [(number 0, number 1), (number 1, number 3)])

/-- The sequence `101` is looked up, its bits are joined again, and a window is taken. -/
theorem run_windowOfBits :
    ((Eval.Task.expr windowOfBits (.ofList [(.encode 7, .nat 5)]) 0).run 10 9).run ⟨0, 0⟩ =
      .value (.bits ⟨2, [0x40]⟩) ⟨3, 3⟩ := by
  let scope : Scope := .ofList [(.encode 7, .nat 5)]
  let span : Span := ⟨.none, .none⟩
  let copy : Value := .function scope (.encode 7)
    (.combine span (.scope span) (.literal span (.encode 7)))
  let range : Scope := .ofList [(.encode 0, .nat 1), (.encode 1, .nat 3)]
  have hscope : ((Eval.Task.expr (.scope span) scope 1).run 10 8).run ⟨0, 0⟩ =
      .value (.set scope) ⟨0, 1⟩ := rfl
  have hbound : ((Eval.Task.combine (.set scope) (.nat 7) .none 1).run 10 8).run ⟨0, 1⟩ =
      .value (.nat 5) ⟨0, 1⟩ := rfl
  have hfold : ((Eval.Task.combine (.nat 5) copy .none 1).run 10 8).run ⟨0, 2⟩ =
      .value (.nat 5) ⟨3, 3⟩ := rfl
  have hwindow : ((Eval.Task.combine (.nat 5) (.set range) .none 1).run 10 8).run ⟨3, 3⟩ =
      .value (.bits ⟨2, [0x40]⟩) ⟨3, 3⟩ := rfl
  refine (Eval.Task.run_combine (by decide) hscope).trans ?_
  refine (Eval.Plan.run_chain rfl hbound).trans ?_
  refine (Eval.Plan.run_chain rfl hfold).trans ?_
  exact Eval.Plan.run_chain rfl hwindow

/-- The window that is taken of the bits `101` is a valid value, and no index is out of
range while it is found. -/
theorem eval_windowOfBits_valid :
    windowOfBits.Canonical ∧ (Value.set (.ofList [(.encode 7, .nat 5)])).Valid ∧
      windowOfBits.eval 10 (.ofList [(.encode 7, .nat 5)]) =
        .value (.bits ⟨2, [0x40]⟩) ⟨3, 3⟩ ∧
      (Value.bits ⟨2, [0x40]⟩).Valid ∧
      (Checked.expr 10 9 windowOfBits (.ofList [(.encode 7, .nat 5)]) 0).run ⟨0, 0⟩ =
        some (.value (.bits ⟨2, [0x40]⟩) ⟨3, 3⟩) := by
  have hcanonical : windowOfBits.Canonical := by
    simp [windowOfBits, Canonical, All, AllEntries, LiteralCanonical, BitSeq.canonical_encode]
  have hscope : (Value.set (.ofList [(.encode 7, .nat 5)])).Valid := by
    refine Value.madeOf_set_iff.mpr ?_
    exact (Bindings.sound_empty Bindings.kept_indexed _).insert Bindings.kept_indexed
      (BitSeq.canonical_encode 7) (Value.madeOf_nat 5)
  have heval : windowOfBits.eval 10 (.ofList [(.encode 7, .nat 5)]) =
      .value (.bits ⟨2, [0x40]⟩) ⟨3, 3⟩ := by
    have hended : ((Eval.Task.expr windowOfBits (.ofList [(.encode 7, .nat 5)]) 0).run 10 9).run
        ⟨0, 0⟩ ≠ .outOfFuel := by
      rw [run_windowOfBits]
      exact Outcome.value_ne_outOfFuel _ _
    rw [eval_of_ended hended, run_windowOfBits]
  obtain ⟨hvalid, -, hchecked⟩ := eval_valid hcanonical hscope 10
  exact ⟨hcanonical, hscope, heval, hvalid _ _ heval,
    (hchecked 9).trans (congrArg some run_windowOfBits)⟩

end Expr

end BitLang
