/-
# Listing the keys of a set

A set next to null is turned into the list of its keys: a set again, with the places of the
first as keys and the keys of the first as values.  Every place is written as a number, and no
two numbers are written alike, so binding one place after another never replaces an earlier one.
The list therefore says of each place which key stands there, and it leads back to the entries:
a place looked up in it and what is found looked up in the set is the value at that place.
-/

import BitLang.Proofs.Bindings.Merge
import BitLang.Proofs.BitSeq.Refinement
import Mathlib.Data.List.Nodup

namespace BitLang

open Eval

namespace Scope

/-- The keys of a set, bound to their places. -/
def enumeration (s : Scope) : Scope :=
  .ofList (s.keys.zipIdx.map fun (key, i) => (.encode i, .bits key))

variable {s : Scope}

theorem indexed_enumeration (s : Scope) : s.enumeration.Indexed :=
  (Bindings.wellFormed_ofList _).indexed

/-- All places are kept, because they are written in different ways. -/
theorem toList_enumeration (s : Scope) :
    s.enumeration.toList = s.keys.zipIdx.map fun (key, i) => (.encode i, .bits key) := by
  apply Bindings.toList_insertAll_of_nodup Bindings.wellFormed_empty
  have hplaces :
      (s.keys.zipIdx.map fun (key, i) => (BitSeq.encode i, Value.bits key)).map Prod.fst =
        (s.keys.zipIdx.map Prod.snd).map BitSeq.encode := by
    rw [List.map_map, List.map_map]
    rfl
  have hnone : (Bindings.empty : Scope).keys = [] := rfl
  rw [hnone, List.nil_append, hplaces, List.zipIdx_map_snd]
  exact List.Nodup.map BitSeq.encode_injective List.nodup_range'

theorem getElem?_toList_enumeration (s : Scope) (i : Nat) :
    s.enumeration.toList[i]? = s.keys[i]?.map fun key => (.encode i, .bits key) := by
  rw [toList_enumeration, List.getElem?_map, List.getElem?_zipIdx, Option.map_map, Nat.zero_add]
  rfl

theorem size_enumeration (s : Scope) : s.enumeration.size = s.size := by
  have hlength := congrArg List.length (toList_enumeration s)
  rw [List.length_map, List.length_zipIdx, ← Bindings.size_eq_length_keys] at hlength
  exact hlength

/-- A number is bound to the key at that place, and to nothing if it is no place of the set. -/
theorem get?_enumeration (s : Scope) (i : Nat) :
    s.enumeration.get? (.encode i) = s.keys[i]?.map .bits := by
  cases h : s.keys[i]? with
  | some key =>
      apply (indexed_enumeration s).get?_of_mem
      apply List.mem_of_getElem? (i := i)
      rw [getElem?_toList_enumeration, h]
      rfl
  | none =>
      rw [(indexed_enumeration s).get?_eq_lookup (List.Perm.refl _)]
      apply lookup_eq_none_iff_not_mem.mpr
      intro hmem
      rw [toList_enumeration, List.map_map] at hmem
      obtain ⟨⟨key, j⟩, hj, heq⟩ := List.mem_map.mp hmem
      obtain rfl : j = i := BitSeq.encode_injective heq
      rw [List.mk_mem_zipIdx_iff_getElem?, h] at hj
      cases hj

end Scope

namespace Value

/-- Looking up a key takes no work, and what is bound to nothing is null. -/
theorem combineAt_lookup (s : Scope) (key : BitSeq) (limit : Int) (pos : Position) (depth : Nat) :
    (set s).combineAt limit pos depth (bits key) = pure ((s.get? key).getD null) := by
  have hrule : ruleOf (set s) (bits key) = .result (.ok ((s.get? key).getD null)) := rfl
  exact combineAt_of_ruleOf hrule limit pos depth

/-- A set and null combine to the list of the keys of the set, whose entries are the places, in
order, and the keys at these places.  Looking up a place in the list, and what is found in the
set, leads to the value at that place; a number that is no place of the set finds null. -/
theorem combineAt_null_enumerates {s : Scope} (hs : s.Indexed) (limit : Int) (pos : Position)
    (depth : Nat) :
    ∃ e : Scope, (set s).combineAt limit pos depth null = pure (set e) ∧
      e.size = s.size ∧
      (∀ i < s.size, ∃ key value, s.toList[i]? = some (key, value) ∧
        e.toList[i]? = some (.encode i, bits key) ∧
        (set e).combineAt limit pos depth (nat i) = pure (bits key) ∧
        (set s).combineAt limit pos depth (bits key) = pure value) ∧
      ∀ j, s.size ≤ j → (set e).combineAt limit pos depth (nat j) = pure null := by
  have hrule : ruleOf (set s) null = .result (.ok (set s.enumeration)) := rfl
  have hlookup (i : Nat) : (set s.enumeration).combineAt limit pos depth (nat i) =
      pure ((s.keys[i]?.map bits).getD null) := by
    rw [← Scope.get?_enumeration]
    exact combineAt_lookup s.enumeration (.encode i) limit pos depth
  refine ⟨s.enumeration, combineAt_of_ruleOf hrule limit pos depth, s.size_enumeration, ?_, ?_⟩
  · intro i hi
    obtain ⟨⟨key, value⟩, hentry⟩ : ∃ entry, s.toList[i]? = some entry :=
      ⟨_, List.getElem?_eq_getElem hi⟩
    have hkey : s.keys[i]? = some key := by
      rw [Bindings.keys, List.getElem?_map, hentry]
      rfl
    refine ⟨key, value, hentry, ?_, ?_, ?_⟩
    · rw [Scope.getElem?_toList_enumeration, hkey]
      rfl
    · rw [hlookup, hkey]
      rfl
    · rw [combineAt_lookup, hs.get?_of_mem (List.mem_of_getElem? hentry)]
      rfl
  · intro j hj
    have hnone : s.keys[j]? = none := by
      rw [List.getElem?_eq_none_iff, ← Bindings.size_eq_length_keys]
      exact hj
    rw [hlookup, hnone]
    rfl

/-- The key `1` at the place `0`, and the key `0` at the place `1`. -/
theorem combineAt_null_enumerates_swapped :
    let s : Scope := .ofList [(.encode 1, .nat 7), (.encode 0, .null)]
    s.Indexed ∧ ∃ e : Scope, (set s).combineAt 10 .none 0 null = pure (set e) ∧
      e.toList[0]? = some (.encode 0, nat 1) ∧
      (set e).combineAt 10 .none 0 (nat 0) = pure (nat 1) ∧
      (set s).combineAt 10 .none 0 (nat 1) = pure (nat 7) ∧
      (set e).combineAt 10 .none 0 (nat 2) = pure null := by
  intro s
  have hs : s.Indexed := (Bindings.wellFormed_ofList _).indexed
  have hfirst : s.toList[0]? = some (.encode 1, .nat 7) := rfl
  obtain ⟨e, hlist, -, hinside, hbehind⟩ := combineAt_null_enumerates hs 10 .none 0
  obtain ⟨key, value, hentry, hplace, hkey, hvalue⟩ := hinside 0 (by decide)
  obtain ⟨rfl, rfl⟩ := Prod.mk.inj (Option.some.inj (hfirst.symm.trans hentry))
  exact ⟨hs, e, hlist, hplace, hkey, hvalue, hbehind 2 (Nat.le_refl 2)⟩

end Value

end BitLang
