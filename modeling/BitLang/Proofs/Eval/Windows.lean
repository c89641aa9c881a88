/-
# Windows of bit sequences

A bit sequence next to a set is cut to the window that the set delimits by its entries `0` and
`1`.  Each of these is a bit sequence itself, of whatever length, and denotes the sum of the
powers of two at its set bits.  Places are words of 64 bits, and so only the first 64 bits of a
bound count: a longer bound is read as if the rest of it were clear.

Main statement: the window is cut exactly if both bounds are there, are bit sequences and delimit
a window inside of the sequence, and otherwise the bounds are reported as an error.
-/

import BitLang.Proofs.BitSeq.Integer
import BitLang.Proofs.Eval.Settled

namespace BitLang

open Eval

/-! ## The window that a set delimits -/

namespace Scope

/-- The set binds `0` and `1` to bit sequences that denote, read in the given way, the bounds of
a window inside of so many bits. -/
structure Delimits (range : Scope) (value : BitSeq → Nat) (len start stop : Nat) : Prop where
  first : ∃ b, range.get? (.encode 0) = some (.bits b) ∧ value b = start
  last : ∃ b, range.get? (.encode 1) = some (.bits b) ∧ value b = stop
  start_le : start ≤ stop
  stop_le : stop ≤ len

end Scope

namespace Eval

variable {range : Scope}

theorem boundOf_eq_ok_iff {i n : Nat} :
    boundOf range i = .ok n ↔ ∃ b, range.get? (.encode i) = some (.bits b) ∧ b.decode = n := by
  unfold boundOf
  split
  · next hnone => simp [hnone]
  · next b hbits => simp [hbits]
  · next v hother hsome =>
      constructor
      · intro h
        cases h
      · rintro ⟨b, hb, -⟩
        exact absurd (hsome.symm.trans hb) (by simpa using hother b)

/-- What is wrong with a bound is a matter of the bounds. -/
theorem class_of_boundOf {i : Nat} {cause : EvalError.Cause} (h : boundOf range i = .error cause) :
    cause.class = .sliceBounds := by
  unfold boundOf at h
  split at h <;> cases h <;> rfl

/-- The window that is cut once both bounds are known. -/
theorem sliceOf_of_bounds {a : BitSeq} {start stop : Nat} (hstart : boundOf range 0 = .ok start)
    (hstop : boundOf range 1 = .ok stop) :
    sliceOf a range =
      if stop < start ∨ a.len < stop then .error (.outOfRange start stop a.len)
      else .ok (.bits (a.slice start stop)) := by
  unfold sliceOf
  rw [hstart, hstop]
  rfl

theorem sliceOf_of_delimits {a : BitSeq} {start stop : Nat}
    (h : range.Delimits (BitSeq.valueOfFirst 64) a.len start stop) :
    sliceOf a range = .ok (.bits (a.slice start stop)) := by
  obtain ⟨⟨first, hfirst, rfl⟩, ⟨last, hlast, rfl⟩, hstart, hstop⟩ := h
  simp only [← BitSeq.decode_eq_valueOfFirst] at hstart hstop ⊢
  rw [sliceOf_of_bounds (boundOf_eq_ok_iff.mpr ⟨first, hfirst, rfl⟩)
    (boundOf_eq_ok_iff.mpr ⟨last, hlast, rfl⟩), if_neg (by omega)]

/-- Without a window to cut, something is wrong with the bounds. -/
theorem sliceOf_of_not_delimits {a : BitSeq}
    (h : ¬ ∃ start stop, range.Delimits (BitSeq.valueOfFirst 64) a.len start stop) :
    ∃ cause, sliceOf a range = .error cause ∧ cause.class = .sliceBounds := by
  cases hstart : boundOf range 0 with
  | error cause => exact ⟨cause, by unfold sliceOf; rw [hstart]; rfl, class_of_boundOf hstart⟩
  | ok start =>
      cases hstop : boundOf range 1 with
      | error cause =>
          exact ⟨cause, by unfold sliceOf; rw [hstart, hstop]; rfl, class_of_boundOf hstop⟩
      | ok stop =>
          rw [sliceOf_of_bounds hstart hstop]
          split
          · exact ⟨_, rfl, rfl⟩
          · next hinside =>
              simp only [boundOf_eq_ok_iff, BitSeq.decode_eq_valueOfFirst] at hstart hstop
              exact absurd ⟨start, stop, hstart, hstop, by omega, by omega⟩ h

end Eval

namespace Value

/-- A bit sequence and a set combine to a value exactly if the set delimits a window inside of
the sequence, where the first 64 bits of a bound count, and to the bits of that window.  Otherwise
the bounds are reported.  Neither takes any work. -/
theorem combineAt_range {a : BitSeq} (ha : a.Canonical) (range : Scope) (limit : Int)
    (pos : Position) (depth : Nat) (tally : Tally) :
    ((∃ v later, ((bits a).combineAt limit pos depth (set range)).run tally = .value v later) ↔
      ∃ start stop, range.Delimits (BitSeq.valueOfFirst 64) a.len start stop) ∧
    (∀ start stop, range.Delimits (BitSeq.valueOfFirst 64) a.len start stop →
      ∃ window, ((bits a).combineAt limit pos depth (set range)).run tally =
          .value (bits window) tally ∧
        window.Canonical ∧ window.len = stop - start ∧
        window.toList = (a.toList.drop start).take (stop - start)) ∧
    ((¬ ∃ start stop, range.Delimits (BitSeq.valueOfFirst 64) a.len start stop) →
      ∃ cause, ((bits a).combineAt limit pos depth (set range)).run tally =
          .failure ⟨pos, cause⟩ tally ∧
        cause.class = .sliceBounds) := by
  rw [combineAt_of_ruleOf (show ruleOf (bits a) (set range) = .result (sliceOf a range) from rfl)]
  have hwindow : ∀ start stop, range.Delimits (BitSeq.valueOfFirst 64) a.len start stop →
      (ofResult pos (sliceOf a range)).run tally = .value (bits (a.slice start stop)) tally := by
    intro start stop h
    rw [sliceOf_of_delimits h]
    rfl
  have hfailure : (¬ ∃ start stop, range.Delimits (BitSeq.valueOfFirst 64) a.len start stop) →
      ∃ cause, (ofResult pos (sliceOf a range)).run tally = .failure ⟨pos, cause⟩ tally ∧
        cause.class = .sliceBounds := by
    intro h
    obtain ⟨cause, hcause, hclass⟩ := sliceOf_of_not_delimits h
    exact ⟨cause, by rw [hcause]; rfl, hclass⟩
  refine ⟨⟨?_, ?_⟩, ?_, hfailure⟩
  · rintro ⟨v, later, hv⟩
    by_contra hnone
    obtain ⟨cause, hcause, -⟩ := hfailure hnone
    cases hcause.symm.trans hv
  · rintro ⟨start, stop, h⟩
    exact ⟨_, _, hwindow start stop h⟩
  · intro start stop h
    have hslice := ha.slice_eq_ofList h.start_le h.stop_le
    have hlength : ((a.toList.drop start).take (stop - start)).length = stop - start := by
      rw [List.length_take, List.length_drop, ha.length_toList]
      have := h.stop_le
      omega
    refine ⟨_, hwindow start stop h, BitSeq.canonical_slice a start stop, ?_, ?_⟩
    · rw [hslice]
      exact hlength
    · rw [hslice, BitSeq.toList_ofList]

/-- The bits `1011`. -/
def fourBits : BitSeq := .ofList [true, false, true, true]

/-- A range from `1`, written with a clear bit too many, to `3`. -/
def innerRange : Scope := .ofList [(.encode 0, .bits (.ofList [true, false])), (.encode 1, .nat 3)]

/-- The window from `1` to `3` of the bits `1011` is `01`. -/
theorem combineAt_innerRange :
    fourBits.Canonical ∧ innerRange.Delimits (BitSeq.valueOfFirst 64) fourBits.len 1 3 ∧
      ∃ window, ((bits fourBits).combineAt 10 .none 0 (set innerRange)).run ⟨0, 0⟩ =
          .value (bits window) ⟨0, 0⟩ ∧
        window.toList = [false, true] := by
  have hcanonical : fourBits.Canonical := BitSeq.canonical_ofList _
  have hdelimits : innerRange.Delimits (BitSeq.valueOfFirst 64) fourBits.len 1 3 := by
    refine ⟨⟨.ofList [true, false], rfl, ?_⟩, ⟨.encode 3, rfl, ?_⟩, by decide, by decide⟩
    · rw [← BitSeq.decode_eq_valueOfFirst]
      decide
    · rw [← BitSeq.decode_eq_valueOfFirst]
      decide
  obtain ⟨-, hwindow, -⟩ := combineAt_range hcanonical innerRange 10 .none 0 ⟨0, 0⟩
  obtain ⟨window, hrun, -, -, hbits⟩ := hwindow 1 3 hdelimits
  exact ⟨hcanonical, hdelimits, window, hrun, by rw [hbits]; rfl⟩

/-- A bound of 65 bits of which only the last is set. -/
def wideBound : BitSeq := .ofList (List.replicate 64 false ++ [true])

/-- A range from `0` to a bound that denotes two to the power of 64. -/
def wideRange : Scope := .ofList [(.encode 0, .nat 0), (.encode 1, .bits wideBound)]

/-- A bound of more than 64 bits may denote a place far behind the end and a window is cut all
the same. -/
theorem combine_wideRange :
    fourBits.Canonical ∧ wideBound.valueOfAll = 2 ^ 64 ∧
      (¬ ∃ start stop, wideRange.Delimits BitSeq.valueOfAll fourBits.len start stop) ∧
      (bits fourBits).combine 10000 (set wideRange) = .value (bits .empty) ⟨0, 0⟩ := by
  have hcanonical : fourBits.Canonical := BitSeq.canonical_ofList _
  have hlast : wideRange.get? (.encode 1) = some (.bits wideBound) := rfl
  have hvalue : wideBound.valueOfAll = 2 ^ 64 := by
    rw [BitSeq.valueOfAll_eq_natOf, wideBound, BitSeq.toList_ofList]
    decide
  have hslice : sliceOf fourBits wideRange = .ok (bits .empty) := rfl
  refine ⟨hcanonical, hvalue, ?_, ?_⟩
  · rintro ⟨start, stop, -, ⟨last, hbits, rfl⟩, -, hstop⟩
    rw [hlast] at hbits
    cases hbits
    rw [hvalue] at hstop
    exact absurd hstop (by decide)
  · show ((bits fourBits).combineAt 10000 .none 0 (set wideRange)).run ⟨0, 0⟩ = _
    have hrule : ruleOf (bits fourBits) (set wideRange) = .result (sliceOf fourBits wideRange) :=
      rfl
    rw [combineAt_of_ruleOf hrule, hslice]
    rfl

end Value

end BitLang
