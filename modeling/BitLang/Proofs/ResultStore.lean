/-
# What a store holds

A store is asked for one operation after another: to put a value under a key, to get it back,
to count, to clear, to close its database and to open it again.  Each operation has an answer,
and one that fails leaves the store as it was.

What the store holds can be told from the operations and their answers alone.  It is what was
put since the store was last cleared, counting only what succeeded; under each key the latest.
Closing and opening the database makes no difference to that.
-/

import BitLang.Proofs.Bindings.History
import BitLang.Proofs.Value.RoundTrip
import BitLang.ResultStore
import Mathlib.Data.List.DropRight

namespace BitLang.ResultStore

/-! ## Operations and answers -/

/-- What a store can be asked for. -/
inductive Operation where
  | put (key : Bytes) (v : Value)
  | get (key : Bytes)
  | count
  | clear
  | close
  | reopen

/-- What a store answers if the operation succeeds. -/
inductive Answer where
  | done
  | value (v : Value)
  | number (n : Nat)

/-- An operation together with its answer. -/
abbrev Exchange := Operation × Except StoreError Answer

/-- The store that an operation has made, or the one before it if the operation failed. -/
def settle (s : ResultStore) : Except StoreError ResultStore →
    Except StoreError Answer × ResultStore
  | .ok t => (.ok .done, t)
  | .error error => (.error error, s)

/-- The answer to an operation, and the store after it. -/
def perform (s : ResultStore) : Operation → Except StoreError Answer × ResultStore
  | .put key v => s.settle (s.put key v)
  | .get key => ((s.get key).map .value, s)
  | .count => (s.count.map .number, s)
  | .clear => s.settle s.clear
  | .close => (.ok .done, s.close)
  | .reopen => (.ok .done, s.reopen)

/-- The store after operations, one after another. -/
def performAll (s : ResultStore) (operations : List Operation) : ResultStore :=
  operations.foldl (fun s operation => (s.perform operation).2) s

/-- Operations, each together with its answer. -/
def course (s : ResultStore) : List Operation → List Exchange
  | [] => []
  | operation :: rest =>
    (operation, (s.perform operation).1) :: (s.perform operation).2.course rest

namespace Operation

/-- What the database is asked to do for an operation. -/
def task? : Operation → Option StoreTask
  | put _ _ => some .saving
  | get _ => some .querying
  | count => some .counting
  | clear => some .clearing
  | close => none
  | reopen => none

/-- Whether the database is open afterwards, if the operation is about that. -/
def opens? : Operation → Option Bool
  | close => some false
  | reopen => some true
  | _ => none

end Operation

namespace Exchange

/-- What was put, if it was. -/
def put? : Exchange → Option (Bytes × Value)
  | (.put key v, .ok _) => some (key, v)
  | _ => none

/-- The store was cleared. -/
def clears : Exchange → Bool
  | (.clear, .ok _) => true
  | _ => false

end Exchange

/-- What was put since the store was last cleared, in order. -/
def contents (course : List Exchange) : List (Bytes × Value) :=
  (course.rtakeWhile fun exchange => !Exchange.clears exchange).filterMap Exchange.put?

/-- The value that was put last under a key. -/
def latest? (contents : List (Bytes × Value)) (key : Bytes) : Option Value :=
  contents.reverse.lookup key

/-! ## One operation -/

section Step

variable {s : ResultStore}

/-- An operation that fails changes nothing. -/
theorem perform_of_error {operation : Operation} {error : StoreError}
    (h : (s.perform operation).1 = .error error) : (s.perform operation).2 = s := by
  cases operation with
  | put key v =>
      rw [perform] at h ⊢
      cases hput : s.put key v with
      | ok t =>
          rw [hput] at h
          cases h
      | error error => rfl
  | clear =>
      rw [perform] at h ⊢
      cases hclear : s.clear with
      | ok t =>
          rw [hclear] at h
          cases h
      | error error => rfl
  | get key => rfl
  | count => rfl
  | close => cases h
  | reopen => cases h

theorem marshal?_eq_none_iff {v : Value} : v.marshal? = none ↔ v.HoldsFunction := by
  rw [Value.marshal?, Option.map_eq_none_iff]
  exact Wire.ofValue?_eq_none_iff v

theorem put_of_holdsFunction {v : Value} (h : v.HoldsFunction) (key : Bytes) :
    s.put key v = .error .notSerializable := by
  rw [put, marshal?_eq_none_iff.mpr h]

theorem put_of_marshal? {v : Value} {bytes : Bytes} (h : v.marshal? = some bytes) (key : Bytes) :
    s.put key v = if s.isOpen then .ok (s.setRow key bytes) else .error (.refused .saving) := by
  rw [put, h]
  rfl

/-- A value is put exactly if the database is open and the value holds no function. -/
theorem perform_put_iff (key : Bytes) (v : Value) :
    (s.perform (.put key v)).1 = .ok .done ↔ s.isOpen = true ∧ ¬v.HoldsFunction := by
  rw [perform]
  cases hbytes : v.marshal? with
  | none =>
      have hholds := marshal?_eq_none_iff.mp hbytes
      rw [put_of_holdsFunction hholds]
      exact ⟨nofun, fun h => absurd hholds h.2⟩
  | some bytes =>
      have hholds : ¬v.HoldsFunction := by
        rw [← marshal?_eq_none_iff, hbytes]
        exact nofun
      rw [put_of_marshal? hbytes]
      cases s.isOpen with
      | true => exact ⟨fun _ => ⟨rfl, hholds⟩, fun _ => rfl⟩
      | false => exact ⟨nofun, fun h => absurd h.1 Bool.false_ne_true⟩

/-- A closed database refuses whatever it is asked to do; only a value that holds a function
is turned down before it is asked. -/
theorem perform_of_closed (hclosed : s.isOpen = false) {operation : Operation} {task : StoreTask}
    (htask : operation.task? = some task) :
    (s.perform operation).1 = .error (.refused task) ∨
      ∃ key v, operation = .put key v ∧ v.HoldsFunction ∧
        (s.perform operation).1 = .error .notSerializable := by
  cases operation with
  | put key v =>
      cases htask
      cases hbytes : v.marshal? with
      | none =>
          have hholds := marshal?_eq_none_iff.mp hbytes
          refine .inr ⟨key, v, rfl, hholds, ?_⟩
          rw [perform, put_of_holdsFunction hholds]
          rfl
      | some bytes =>
          refine .inl ?_
          rw [perform, put_of_marshal? hbytes, hclosed]
          rfl
  | get key =>
      cases htask
      refine .inl ?_
      simp [perform, get, hclosed, Except.map]
  | count =>
      cases htask
      refine .inl ?_
      simp [perform, count, hclosed, Except.map]
  | clear =>
      cases htask
      refine .inl ?_
      simp [perform, clear, hclosed, settle]
  | close => cases htask
  | reopen => cases htask

/-- Only closing and opening the database decide whether it is open. -/
theorem isOpen_perform (operation : Operation) :
    (s.perform operation).2.isOpen = operation.opens?.getD s.isOpen := by
  cases operation with
  | put key v =>
      rw [perform]
      cases hbytes : v.marshal? with
      | none =>
          rw [put_of_holdsFunction (marshal?_eq_none_iff.mp hbytes)]
          rfl
      | some bytes =>
          rw [put_of_marshal? hbytes]
          split <;> rfl
  | clear =>
      rw [perform, clear]
      split <;> rfl
  | get key => rfl
  | count => rfl
  | close => rfl
  | reopen => rfl

end Step

/-! ## What is held -/

/-- The rows of the store are the bytes of the latest value under each key, one row for
each. -/
structure Holds (s : ResultStore) (contents : List (Bytes × Value)) : Prop where
  lookup_eq : ∀ key, s.rows.lookup key = (latest? contents key).bind Value.marshal?
  nodup : (s.rows.map Prod.fst).Nodup
  travels : ∀ entry ∈ contents, ∃ bytes, entry.2.marshal? = some bytes

theorem lookup_filter_of_ne {rows : List (Bytes × Bytes)} {key other : Bytes} (h : other ≠ key) :
    (rows.filter fun (k, _) => k != key).lookup other = rows.lookup other := by
  induction rows with
  | nil => rfl
  | cons row rest ih =>
      rcases row with ⟨k, bytes⟩
      by_cases hk : k = key
      · rw [List.filter_cons_of_neg (by simp [hk]), ih, List.lookup_cons, hk, beq_false_of_ne h]
      · rw [List.filter_cons_of_pos (by simp [hk]), List.lookup_cons, List.lookup_cons, ih]

theorem latest?_concat (contents : List (Bytes × Value)) (key : Bytes) (v : Value)
    (other : Bytes) :
    latest? (contents ++ [(key, v)]) other =
      if other = key then some v else latest? contents other := by
  rw [latest?, List.reverse_append, List.reverse_singleton, List.singleton_append,
    List.lookup_cons]
  by_cases h : other = key
  · rw [if_pos h, h, beq_self_eq_true]
  · rw [if_neg h, beq_false_of_ne h]
    rfl

theorem latest?_eq_none_iff {contents : List (Bytes × Value)} {key : Bytes} :
    latest? contents key = none ↔ key ∉ contents.map Prod.fst := by
  rw [latest?, lookup_eq_none_iff_not_mem, List.map_reverse, List.mem_reverse]

namespace Holds

variable {s : ResultStore} {contents : List (Bytes × Value)} {key : Bytes} {v : Value}

theorem fresh : ResultStore.fresh.Holds [] := ⟨fun _ => rfl, List.nodup_nil, nofun⟩

/-- The value under a key is one of those that were put, and travels. -/
theorem exists_of_latest? (h : s.Holds contents) (hlatest : latest? contents key = some v) :
    ∃ bytes, v.marshal? = some bytes ∧ s.rows.lookup key = some bytes := by
  obtain ⟨before, after, hcontents, -⟩ := List.lookup_eq_some_iff.mp hlatest
  have hmem : (key, v) ∈ contents := by
    rw [← List.mem_reverse, hcontents]
    exact List.mem_append_right before (List.mem_cons_self ..)
  obtain ⟨bytes, hbytes⟩ := h.travels _ hmem
  refine ⟨bytes, hbytes, ?_⟩
  rw [h.lookup_eq, hlatest]
  exact hbytes

/-- Writing the row of a value. -/
theorem setRow (h : s.Holds contents) {bytes : Bytes} (hbytes : v.marshal? = some bytes)
    (key : Bytes) : (s.setRow key bytes).Holds (contents ++ [(key, v)]) := by
  refine ⟨fun other => ?_, ?_, ?_⟩
  · rw [ResultStore.setRow, latest?_concat, List.lookup_cons]
    by_cases hother : other = key
    · simp [hother, hbytes]
    · rw [if_neg hother, beq_false_of_ne hother, ← h.lookup_eq]
      exact lookup_filter_of_ne hother
  · refine List.nodup_cons.mpr ⟨?_, h.nodup.sublist (List.filter_sublist.map _)⟩
    simp
  · rw [List.forall_mem_append, List.forall_mem_singleton]
    exact ⟨h.travels, bytes, hbytes⟩

/-- The keys of the rows are those that something was put under. -/
theorem mem_rows_iff (h : s.Holds contents) :
    key ∈ s.rows.map Prod.fst ↔ key ∈ contents.map Prod.fst := by
  rw [← not_iff_not, ← lookup_eq_none_iff_not_mem, ← latest?_eq_none_iff]
  cases hlatest : latest? contents key with
  | none =>
      rw [h.lookup_eq, hlatest]
      exact iff_of_true rfl rfl
  | some v =>
      obtain ⟨bytes, -, hrow⟩ := h.exists_of_latest? hlatest
      rw [hrow]
      exact iff_of_false nofun nofun

/-- There is one row for each key. -/
theorem length_rows (h : s.Holds contents) :
    s.rows.length = (contents.map Prod.fst).toFinset.card := by
  have hkeys : (contents.map Prod.fst).toFinset = (s.rows.map Prod.fst).toFinset := by
    ext key
    rw [List.mem_toFinset, List.mem_toFinset, h.mem_rows_iff]
  rw [hkeys, List.toFinset_card_of_nodup h.nodup, List.length_map]

/-- Nothing that the database keeps depends on whether it is open. -/
theorem of_rows_eq {t : ResultStore} (h : s.Holds contents) (hrows : t.rows = s.rows) :
    t.Holds contents := by
  refine ⟨?_, ?_, h.travels⟩ <;> rw [hrows]
  · exact h.lookup_eq
  · exact h.nodup

end Holds

theorem contents_concat (course : List Exchange) (exchange : Exchange) :
    contents (course ++ [exchange]) =
      if exchange.clears then [] else contents course ++ exchange.put?.toList := by
  rw [contents, List.rtakeWhile_concat]
  by_cases h : exchange.clears
  · simp [h]
  · simp only [h, Bool.not_false, if_true, contents, List.filterMap_append]
    cases hput : exchange.put? <;> simp [hput]

/-- What is held after one more operation is told by its answer. -/
theorem Holds.perform {s : ResultStore} {course : List Exchange} (h : s.Holds (contents course))
    (operation : Operation) :
    (s.perform operation).2.Holds
      (contents (course ++ [(operation, (s.perform operation).1)])) := by
  rw [contents_concat]
  cases operation with
  | put key v =>
      rw [ResultStore.perform]
      cases hbytes : v.marshal? with
      | none =>
          rw [put_of_holdsFunction (marshal?_eq_none_iff.mp hbytes)]
          simpa [settle, Exchange.clears, Exchange.put?] using h
      | some bytes =>
          rw [put_of_marshal? hbytes]
          cases s.isOpen with
          | true => exact h.setRow hbytes key
          | false => simpa [settle, Exchange.clears, Exchange.put?] using h
  | clear =>
      rw [ResultStore.perform, clear]
      cases s.isOpen with
      | true => exact Holds.fresh.of_rows_eq rfl
      | false => simpa [settle, Exchange.clears, Exchange.put?] using h
  | get key => simpa [ResultStore.perform, Exchange.clears, Exchange.put?] using h
  | count => simpa [ResultStore.perform, Exchange.clears, Exchange.put?] using h
  | close =>
      simpa [ResultStore.perform, Exchange.clears, Exchange.put?] using
        h.of_rows_eq (t := s.close) rfl
  | reopen =>
      simpa [ResultStore.perform, Exchange.clears, Exchange.put?] using
        h.of_rows_eq (t := s.reopen) rfl

/-! ## Any number of operations -/

theorem course_concat (s : ResultStore) (operations : List Operation) (operation : Operation) :
    s.course (operations ++ [operation]) =
      s.course operations ++ [(operation, ((s.performAll operations).perform operation).1)] := by
  induction operations generalizing s with
  | nil => rfl
  | cons first rest ih =>
      exact congrArg (List.cons (first, (s.perform first).1)) (ih (s.perform first).2)

theorem performAll_concat (s : ResultStore) (operations : List Operation)
    (operation : Operation) :
    s.performAll (operations ++ [operation]) =
      ((s.performAll operations).perform operation).2 := by
  rw [performAll, List.foldl_append]
  rfl

theorem holds_performAll (operations : List Operation) :
    (fresh.performAll operations).Holds (contents (fresh.course operations)) := by
  induction operations using List.reverseRecOn with
  | nil => exact Holds.fresh
  | append_singleton operations operation ih =>
      rw [performAll_concat, course_concat]
      exact ih.perform operation

/-- The database is open unless it was closed and not opened since. -/
theorem isOpen_performAll (operations : List Operation) :
    (fresh.performAll operations).isOpen =
      (operations.filterMap Operation.opens?).getLast?.getD true := by
  induction operations using List.reverseRecOn with
  | nil => rfl
  | append_singleton operations operation ih =>
      rw [performAll_concat, isOpen_perform, ih, List.filterMap_append, List.getLast?_append]
      cases hopens : operation.opens? <;> simp [hopens]

namespace Holds

variable {s : ResultStore} {contents : List (Bytes × Value)} {key : Bytes} {v : Value}

theorem perform_get_of_none (h : s.Holds contents) (hopen : s.isOpen = true)
    (hlatest : latest? contents key = none) :
    (s.perform (.get key)).1 = .error .notFound := by
  rw [ResultStore.perform, get, if_pos hopen, h.lookup_eq, hlatest]
  rfl

theorem perform_get_of_some (h : s.Holds contents) (hopen : s.isOpen = true)
    (hlatest : latest? contents key = some v) (hpacked : v.Packed) (hmoderate : v.Moderate)
    (hlevels : v.levels ≤ Cbor.maxNesting) :
    (s.perform (.get key)).1 = .ok (.value v.asRead) := by
  obtain ⟨bytes, hbytes, hrow⟩ := h.exists_of_latest? hlatest
  rw [ResultStore.perform, get, if_pos hopen, hrow]
  simp only [Value.unmarshal_of_levels_le hpacked hmoderate hbytes hlevels]
  rfl

theorem perform_count (h : s.Holds contents) (hopen : s.isOpen = true) :
    (s.perform .count).1 = .ok (.number (contents.map Prod.fst).toFinset.card) := by
  rw [ResultStore.perform, count, if_pos hopen, h.length_rows]
  rfl

end Holds

/-- After any operations on a new store, let the contents be what was put, successfully, since
the store was last cleared.  While the database is open, the store answers with the latest
value under a key, as that comes back from the wire, or that there is none, and counts the
keys.  A value is put unless it holds a function or the database is closed, and a closed
database refuses everything.  An operation that fails changes nothing, so that opening the
database again shows what was there before. -/
theorem performAll_fresh (operations : List Operation) :
    let s := fresh.performAll operations
    let held := contents (fresh.course operations)
    s.isOpen = (operations.filterMap Operation.opens?).getLast?.getD true ∧
      (s.isOpen = true →
        (∀ key, latest? held key = none → (s.perform (.get key)).1 = .error .notFound) ∧
        (∀ key v, latest? held key = some v →
          v.Packed → v.Moderate → v.levels ≤ Cbor.maxNesting →
          (s.perform (.get key)).1 = .ok (.value v.asRead) ∧ (v.WellFormed → v.asRead = v)) ∧
        (s.perform .count).1 = .ok (.number (held.map Prod.fst).toFinset.card)) ∧
      (∀ key v, (s.perform (.put key v)).1 = .ok .done ↔
        s.isOpen = true ∧ ¬v.HoldsFunction) ∧
      (s.isOpen = false → ∀ operation task, operation.task? = some task →
        (s.perform operation).1 = .error (.refused task) ∨
          ∃ key v, operation = .put key v ∧ v.HoldsFunction ∧
            (s.perform operation).1 = .error .notSerializable) ∧
      ∀ operation error, (s.perform operation).1 = .error error →
        (s.perform operation).2 = s := by
  intro s held
  have hholds : s.Holds held := holds_performAll operations
  refine ⟨isOpen_performAll operations, ?_, perform_put_iff,
    fun hclosed _ _ => perform_of_closed hclosed, fun _ _ => perform_of_error⟩
  intro hopen
  refine ⟨fun key => hholds.perform_get_of_none hopen, ?_, hholds.perform_count hopen⟩
  intro key v hlatest hpacked hmoderate hlevels
  exact ⟨hholds.perform_get_of_some hopen hlatest hpacked hmoderate hlevels,
    Value.asRead_of_wellFormed⟩

/-- What is asked of a closed database is not counted, neither what is put nor a clearing. -/
example :
    contents (fresh.course
      [.put [0x6B] .null, .close, .put [0x6B] (.bits .empty), .clear, .reopen]) =
        [([0x6B], .null)] :=
  rfl

end BitLang.ResultStore
