/-
# Laws of bindings

Bindings keep an index beside their entries.  Whatever is made by binding one key
after another has an index that its keys alone determine, so two such maps with the
same entries are the same map, and binding the entries of a map once more, in order,
gives the map back.

Changing the values of a map and nothing else commutes with every operation, because
no operation looks at a value.
-/

import BitLang.Bindings
import Mathlib.Data.List.Induction

namespace BitLang

namespace BitSeq

instance : Std.TransCmp cmp :=
  inferInstanceAs (Std.TransCmp (compareLex (compareOn BitSeq.len) (compareOn BitSeq.bytes)))

instance : Std.LawfulEqCmp cmp where
  eq_of_compare {a b} h := by
    obtain ⟨hlen, hbytes⟩ := Ordering.then_eq_eq.mp h
    cases a
    cases b
    exact congr (congrArg BitSeq.mk (Std.LawfulEqOrd.eq_of_compare hlen))
      (Std.LawfulEqOrd.eq_of_compare hbytes)

end BitSeq

namespace Bindings

variable {α β : Type}

theorem ofList_append (entries more : List (BitSeq × α)) :
    ofList (entries ++ more) = (ofList entries).insertAll more := List.foldl_append

/-! ## Changing the values -/

/-- The same keys in the same places, with other values. -/
def map (f : α → β) (s : Bindings α) : Bindings β :=
  ⟨s.entries.map fun (key, value) => (key, f value), s.index⟩

theorem map_empty (f : α → β) : (empty : Bindings α).map f = empty := by
  simp only [map, empty, Array.map_empty]

theorem size_map (f : α → β) (s : Bindings α) : (s.map f).size = s.size := by
  simp only [size, map, Array.size_map]

theorem toList_map (f : α → β) (s : Bindings α) :
    (s.map f).toList = s.toList.map fun (key, value) => (key, f value) := by
  simp only [toList, map, Array.toList_map]

theorem keys_map (f : α → β) (s : Bindings α) : (s.map f).keys = s.keys := by
  rw [keys, keys, toList_map, List.map_map]
  rfl

theorem values_map (f : α → β) (s : Bindings α) : (s.map f).values = s.values.map f := by
  rw [values, values, toList_map, List.map_map, List.map_map]
  rfl

theorem get?_map (f : α → β) (s : Bindings α) (key : BitSeq) :
    (s.map f).get? key = (s.get? key).map f := by
  unfold get? map
  cases s.index[key]? with
  | none => rfl
  | some i => simp only [Array.getElem?_map, Option.map_map, Function.comp_def]

theorem map_insert (f : α → β) (s : Bindings α) (key : BitSeq) (value : α) :
    (s.insert key value).map f = (s.map f).insert key (f value) := by
  unfold insert map
  cases s.index[key]? with
  | none => simp only [Array.map_push, Array.size_map]
  | some i => simp only [Array.map_setIfInBounds]

theorem map_insertAll (f : α → β) (s : Bindings α) (entries : List (BitSeq × α)) :
    (s.insertAll entries).map f =
      (s.map f).insertAll (entries.map fun (key, value) => (key, f value)) := by
  induction entries generalizing s with
  | nil => rfl
  | cons entry rest ih =>
      have hstep := ih (s.insert entry.1 entry.2)
      rw [map_insert] at hstep
      exact hstep

theorem map_ofList (f : α → β) (entries : List (BitSeq × α)) :
    (ofList entries).map f = ofList (entries.map fun (key, value) => (key, f value)) := by
  rw [ofList, map_insertAll, map_empty]
  rfl

theorem map_merge (f : α → β) (s other : Bindings α) :
    (s.merge other).map f = (s.map f).merge (other.map f) := by
  unfold merge
  rw [size_map, size_map, toList_map, ← map_insertAll]
  split
  · rfl
  · split <;> rfl

/-! ## Well-formed bindings -/

/-- The index that keys get when they are bound in order. -/
def indexOf (keys : List BitSeq) : Std.TreeMap BitSeq Nat BitSeq.cmp :=
  keys.zipIdx.foldl (fun index (key, i) => index.insert key i) ∅

theorem indexOf_concat (keys : List BitSeq) (key : BitSeq) :
    indexOf (keys ++ [key]) = (indexOf keys).insert key keys.length := by
  rw [indexOf, List.zipIdx_append, List.foldl_append, Nat.zero_add]
  rfl

/-- An index goes on telling the place of each key when a new one comes behind them. -/
theorem getElem?_insert_iff {index : Std.TreeMap BitSeq Nat BitSeq.cmp} {keys : List BitSeq}
    (h : ∀ (key : BitSeq) (i : Nat), index[key]? = some i ↔ keys[i]? = some key) {last : BitSeq}
    (hlast : last ∉ keys) (key : BitSeq) (i : Nat) :
    (index.insert last keys.length)[key]? = some i ↔ (keys ++ [last])[i]? = some key := by
  rw [Std.TreeMap.getElem?_insert, List.getElem?_append]
  by_cases hsame : last = key
  · subst hsame
    simp only [Std.ReflCmp.compare_self, if_true, Option.some.injEq]
    grind
  · rw [if_neg (fun heq => hsame (Std.LawfulEqCmp.eq_of_compare heq)), h]
    grind

/-- The index of distinct keys tells the place of each. -/
theorem getElem?_indexOf {keys : List BitSeq} (h : keys.Nodup) (key : BitSeq) (i : Nat) :
    (indexOf keys)[key]? = some i ↔ keys[i]? = some key := by
  induction keys using List.reverseRecOn generalizing key i with
  | nil => simp [indexOf]
  | append_singleton keys last ih =>
      obtain ⟨hkeys, hlast⟩ : keys.Nodup ∧ last ∉ keys := by
        rw [List.nodup_append] at h
        exact ⟨h.1, fun hmem => h.2.2 last hmem last (List.mem_singleton_self last) rfl⟩
      rw [indexOf_concat]
      exact getElem?_insert_iff (ih hkeys) hlast key i

/-- No key stands twice, and the index tells the place of each key and of nothing else. -/
structure Indexed (s : Bindings α) : Prop where
  nodup : s.keys.Nodup
  index_eq_some_iff : ∀ (key : BitSeq) (i : Nat), s.index[key]? = some i ↔ s.keys[i]? = some key

/-- No key stands twice, and the index is the one that the keys get when they are
bound in order. -/
structure WellFormed (s : Bindings α) : Prop where
  nodup : s.keys.Nodup
  index_eq : s.index = indexOf s.keys

theorem Indexed.index_eq_none_iff {s : Bindings α} (hs : s.Indexed) (key : BitSeq) :
    s.index[key]? = none ↔ key ∉ s.keys := by
  rw [Option.eq_none_iff_forall_ne_some, List.mem_iff_getElem?, not_exists]
  exact forall_congr' fun i => not_congr (hs.index_eq_some_iff key i)

namespace WellFormed

variable {s t : Bindings α}

theorem indexed (hs : s.WellFormed) : s.Indexed where
  nodup := hs.nodup
  index_eq_some_iff key i := by
    rw [hs.index_eq]
    exact getElem?_indexOf hs.nodup key i

/-- Well-formed maps with the same entries are the same. -/
theorem eq_of_toList_eq (hs : s.WellFormed) (ht : t.WellFormed) (h : s.toList = t.toList) :
    s = t := by
  have hentries : s.entries = t.entries := Array.toList_inj.mp h
  have hindex : s.index = t.index := by
    rw [hs.index_eq, ht.index_eq, keys, keys, h]
  cases s
  cases t
  exact congr (congrArg Bindings.mk hentries) hindex

end WellFormed

theorem wellFormed_empty : (empty : Bindings α).WellFormed := ⟨List.nodup_nil, rfl⟩

theorem insert_of_index_eq_none {s : Bindings α} {key : BitSeq} (h : s.index[key]? = none)
    (value : α) :
    s.insert key value = ⟨s.entries.push (key, value), s.index.insert key s.entries.size⟩ := by
  rw [insert, h]

theorem insert_of_index_eq_some {s : Bindings α} {key : BitSeq} {i : Nat}
    (h : s.index[key]? = some i) (value : α) :
    s.insert key value = ⟨s.entries.setIfInBounds i (key, value), s.index⟩ := by
  rw [insert, h]

theorem size_eq_length_keys (s : Bindings α) : s.entries.size = s.keys.length := by
  rw [keys, List.length_map]
  rfl

namespace Indexed

variable {s : Bindings α}

/-- A key that is not bound yet goes behind all others. -/
theorem toList_insert_of_not_mem (hs : s.Indexed) {key : BitSeq} (h : key ∉ s.keys) (value : α) :
    (s.insert key value).toList = s.toList ++ [(key, value)] := by
  rw [insert_of_index_eq_none ((hs.index_eq_none_iff key).mpr h)]
  exact Array.toList_push

theorem keys_insert_of_not_mem (hs : s.Indexed) {key : BitSeq} (h : key ∉ s.keys) (value : α) :
    (s.insert key value).keys = s.keys ++ [key] := by
  rw [keys, hs.toList_insert_of_not_mem h, List.map_append]
  rfl

/-- Binding a bound key again leaves all keys where they are. -/
theorem keys_insert_of_mem (hs : s.Indexed) {key : BitSeq} {i : Nat}
    (h : s.index[key]? = some i) (value : α) : (s.insert key value).keys = s.keys := by
  have hkey := (hs.index_eq_some_iff key i).mp h
  rw [insert_of_index_eq_some h, keys, toList, Array.toList_setIfInBounds, List.map_set]
  obtain ⟨hi, hget⟩ := List.getElem?_eq_some_iff.mp hkey
  rw [← hget]
  exact List.set_getElem_self hi

theorem nodup_insert (hs : s.Indexed) (key : BitSeq) (value : α) :
    (s.insert key value).keys.Nodup := by
  cases h : s.index[key]? with
  | none =>
      have hfresh := (hs.index_eq_none_iff key).mp h
      rw [hs.keys_insert_of_not_mem hfresh]
      exact List.nodup_append.mpr ⟨hs.nodup, by simp, by grind⟩
  | some i =>
      rw [hs.keys_insert_of_mem h]
      exact hs.nodup

theorem insert (hs : s.Indexed) (key : BitSeq) (value : α) : (s.insert key value).Indexed := by
  refine ⟨hs.nodup_insert key value, ?_⟩
  cases h : s.index[key]? with
  | none =>
      have hfresh := (hs.index_eq_none_iff key).mp h
      rw [hs.keys_insert_of_not_mem hfresh, insert_of_index_eq_none h, size_eq_length_keys]
      exact getElem?_insert_iff hs.index_eq_some_iff hfresh
  | some i =>
      rw [hs.keys_insert_of_mem h, insert_of_index_eq_some h]
      exact hs.index_eq_some_iff

end Indexed

theorem WellFormed.insert {s : Bindings α} (hs : s.WellFormed) (key : BitSeq) (value : α) :
    (s.insert key value).WellFormed := by
  refine ⟨hs.indexed.nodup_insert key value, ?_⟩
  cases h : s.index[key]? with
  | none =>
      have hfresh := (hs.indexed.index_eq_none_iff key).mp h
      rw [hs.indexed.keys_insert_of_not_mem hfresh, indexOf_concat, insert_of_index_eq_none h,
        ← hs.index_eq, size_eq_length_keys]
  | some i =>
      rw [hs.indexed.keys_insert_of_mem h, insert_of_index_eq_some h]
      exact hs.index_eq

theorem WellFormed.insertAll {s : Bindings α} (hs : s.WellFormed) (entries : List (BitSeq × α)) :
    (s.insertAll entries).WellFormed := by
  induction entries generalizing s with
  | nil => exact hs
  | cons entry rest ih => exact ih (hs.insert entry.1 entry.2)

theorem wellFormed_ofList (entries : List (BitSeq × α)) : (ofList entries).WellFormed :=
  wellFormed_empty.insertAll entries

theorem WellFormed.merge {s other : Bindings α} (hs : s.WellFormed) (hother : other.WellFormed) :
    (s.merge other).WellFormed := by
  unfold Bindings.merge
  split
  · exact hs
  · split
    · exact hother
    · exact hs.insertAll other.toList

theorem toList_insertAll_of_nodup {s : Bindings α} (hs : s.WellFormed)
    {entries : List (BitSeq × α)} (h : (s.keys ++ entries.map Prod.fst).Nodup) :
    (s.insertAll entries).toList = s.toList ++ entries := by
  induction entries generalizing s with
  | nil => exact (List.append_nil _).symm
  | cons entry rest ih =>
      rcases entry with ⟨key, value⟩
      have hfresh : key ∉ s.keys := by
        intro hmem
        exact (List.nodup_append.mp h).2.2 key hmem key (List.mem_cons_self ..) rfl
      have hlist := hs.indexed.toList_insert_of_not_mem hfresh value
      have hrest : ((s.insert key value).keys ++ rest.map Prod.fst).Nodup := by
        rw [keys, hlist, List.map_append, List.append_assoc]
        exact h
      have hstep := ih (hs.insert key value) hrest
      rw [hlist, List.append_assoc] at hstep
      exact hstep

/-- Binding the entries of a map in order gives the map back. -/
theorem WellFormed.ofList_toList {s : Bindings α} (hs : s.WellFormed) : ofList s.toList = s := by
  apply (wellFormed_ofList s.toList).eq_of_toList_eq hs
  exact toList_insertAll_of_nodup wellFormed_empty hs.nodup

end Bindings

end BitLang
