/-
# Merging bindings

Merging lays one map over another: a key stands where the first map has it, or else behind,
in the order of the second, and has the value of the second map where that binds it.  Maps
are thereby an idempotent monoid, with the empty map as its unit, and binding a single key is
merging with a map of one entry.

All laws come from three facts about one binding: what it does to the keys, to the answers
and to the index (`keys_insert`, `get?_insert`, `index_insert`).  A key that is bound already
may be bound before or after other keys, and so the bindings of a map may be replayed onto
another map in any way of bracketing.
-/

import BitLang.Proofs.Bindings.History
import BitLang.Proofs.Eval.Settled

namespace BitLang

namespace Bindings

variable {α : Type} {s other : Bindings α} {key : BitSeq} {value : α}

/-! ## One binding -/

namespace Indexed

theorem exists_index_eq_some (hs : s.Indexed) (h : key ∈ s.keys) :
    ∃ i, s.index[key]? = some i := by
  obtain ⟨i, hi⟩ := List.mem_iff_getElem?.mp h
  exact ⟨i, (hs.index_eq_some_iff key i).mpr hi⟩

theorem keys_insert (hs : s.Indexed) (key : BitSeq) (value : α) :
    (s.insert key value).keys = if key ∈ s.keys then s.keys else s.keys ++ [key] := by
  split
  · next hmem =>
      obtain ⟨i, hi⟩ := hs.exists_index_eq_some hmem
      exact hs.keys_insert_of_mem hi value
  · next hfresh => exact hs.keys_insert_of_not_mem hfresh value

theorem index_insert (hs : s.Indexed) (key : BitSeq) (value : α) :
    (s.insert key value).index =
      if key ∈ s.keys then s.index else s.index.insert key s.keys.length := by
  split
  · next hmem =>
      obtain ⟨i, hi⟩ := hs.exists_index_eq_some hmem
      rw [insert_of_index_eq_some hi]
  · next hfresh =>
      rw [insert_of_index_eq_none ((hs.index_eq_none_iff key).mpr hfresh), size_eq_length_keys]

theorem get?_insert (hs : s.Indexed) (key : BitSeq) (value : α) (asked : BitSeq) :
    (s.insert key value).get? asked = if asked = key then some value else s.get? asked := by
  split
  · next hsame => rw [hsame, hs.get?_insert_self]
  · next hne => exact hs.get?_insert_of_ne hne value

theorem get?_of_mem (hs : s.Indexed) (h : (key, value) ∈ s.toList) : s.get? key = some value := by
  rw [hs.get?_eq_lookup (List.Perm.refl _)]
  exact lookup_of_mem hs.nodup h

/-- A list with the keys of a map, in their order, and the value that the map answers for each is
the list of its entries. -/
theorem toList_eq (hs : s.Indexed) {l : List (BitSeq × α)} (hkeys : s.keys = l.map Prod.fst)
    (hget : ∀ entry ∈ l, s.get? entry.1 = some entry.2) : s.toList = l := by
  have hlength : s.toList.length = l.length := by
    simpa only [keys, List.length_map] using congrArg List.length hkeys
  apply List.ext_getElem hlength
  intro i hi hi'
  have hkey : s.toList[i].1 = l[i].1 := by
    have := List.getElem_of_eq hkeys (by rw [keys, List.length_map]; exact hi)
    simpa only [keys, List.getElem_map] using this
  have hvalue : some s.toList[i].2 = some l[i].2 := by
    rw [← hget l[i] (List.getElem_mem hi'), ← hkey]
    exact (hs.get?_of_mem (List.getElem_mem hi)).symm
  exact Prod.ext hkey (Option.some.inj hvalue)

/-- A map is known by its keys, its answers and its index. -/
theorem ext (hs : s.Indexed) (hother : other.Indexed) (hkeys : s.keys = other.keys)
    (hget : ∀ key, s.get? key = other.get? key) (hindex : s.index = other.index) : s = other := by
  have hlist : s.toList = other.toList := by
    apply hs.toList_eq hkeys
    intro entry hmem
    rw [hget]
    exact hother.get?_of_mem hmem
  cases s
  cases other
  exact congr (congrArg Bindings.mk (Array.toList_inj.mp hlist)) hindex

/-- Binding what is bound changes nothing. -/
theorem insert_of_mem (hs : s.Indexed) (h : (key, value) ∈ s.toList) :
    s.insert key value = s := by
  have hmem : key ∈ s.keys := List.mem_map_of_mem h
  apply (hs.insert key value).ext hs
  · rw [hs.keys_insert, if_pos hmem]
  · intro asked
    rw [hs.get?_insert]
    split
    · next hsame => rw [hsame, hs.get?_of_mem h]
    · rfl
  · rw [hs.index_insert, if_pos hmem]

/-- There is only one map without entries. -/
theorem eq_empty (hs : s.Indexed) (h : s.size = 0) : s = empty := by
  have hkeys : s.keys = [] := by
    apply List.length_eq_zero_iff.mp
    rw [← size_eq_length_keys]
    exact h
  have hindex : s.index.isEmpty := by
    rw [Std.TreeMap.isEmpty_iff_forall_not_mem]
    intro key hmem
    rw [Std.TreeMap.mem_iff_isSome_getElem?,
      (hs.index_eq_none_iff key).mpr (by simp [hkeys])] at hmem
    cases hmem
  rcases s with ⟨entries, ⟨⟨tree, _⟩⟩⟩
  obtain rfl : entries = #[] := Array.eq_empty_of_size_eq_zero h
  cases tree with
  | leaf => rfl
  | inner => cases hindex

end Indexed

/-! ## Many bindings -/

theorem insertAll_append (s : Bindings α) (entries more : List (BitSeq × α)) :
    s.insertAll (entries ++ more) = (s.insertAll entries).insertAll more := List.foldl_append

namespace Indexed

theorem insertAll (hs : s.Indexed) (entries : List (BitSeq × α)) :
    (s.insertAll entries).Indexed := by
  induction entries generalizing s with
  | nil => exact hs
  | cons entry rest ih => exact ih (hs.insert entry.1 entry.2)

/-- What is bound already is no news. -/
theorem insertAll_of_subset (hs : s.Indexed) {entries : List (BitSeq × α)}
    (h : ∀ entry ∈ entries, entry ∈ s.toList) : s.insertAll entries = s := by
  induction entries with
  | nil => rfl
  | cons entry rest ih =>
      obtain ⟨hentry, hrest⟩ := List.forall_mem_cons.mp h
      have hstep : s.insertAll (entry :: rest) = (s.insert entry.1 entry.2).insertAll rest := rfl
      rw [hstep, hs.insert_of_mem hentry]
      exact ih hrest

theorem keys_insertAll (hs : s.Indexed) {entries : List (BitSeq × α)}
    (h : (entries.map Prod.fst).Nodup) :
    (s.insertAll entries).keys = s.keys ++ (entries.map Prod.fst).filter (· ∉ s.keys) := by
  induction entries generalizing s with
  | nil => exact (List.append_nil _).symm
  | cons entry rest ih =>
      obtain ⟨hfresh, hrest⟩ := List.nodup_cons.mp h
      have hstep : (s.insertAll (entry :: rest)).keys = _ := ih (hs.insert entry.1 entry.2) hrest
      rw [hstep, hs.keys_insert, List.map_cons, List.filter_cons]
      by_cases hmem : entry.1 ∈ s.keys
      · simp only [hmem, if_true, not_true_eq_false, decide_false, Bool.false_eq_true, if_false]
      · -- the key that was just bound does not come again
        have hsame : (rest.map Prod.fst).filter (· ∉ s.keys ++ [entry.1]) =
            (rest.map Prod.fst).filter (· ∉ s.keys) := by
          apply List.filter_congr
          intro key hkey
          have hne : key ≠ entry.1 := fun heq => hfresh (heq ▸ hkey)
          simp [hne]
        simp only [hmem, if_false, not_false_eq_true, decide_true, if_true, hsame,
          List.append_assoc, List.singleton_append]

theorem get?_insertAll (hs : s.Indexed) {entries : List (BitSeq × α)}
    (h : (entries.map Prod.fst).Nodup) (key : BitSeq) :
    (s.insertAll entries).get? key = (entries.lookup key).or (s.get? key) := by
  induction entries generalizing s with
  | nil => rfl
  | cons entry rest ih =>
      obtain ⟨hfresh, hrest⟩ := List.nodup_cons.mp h
      have hstep : (s.insertAll (entry :: rest)).get? key = _ :=
        ih (hs.insert entry.1 entry.2) hrest
      rw [hstep, hs.get?_insert, List.lookup_cons]
      by_cases hsame : key = entry.1
      · rw [if_pos hsame, beq_iff_eq.mpr hsame, hsame, lookup_eq_none_iff_not_mem.mpr hfresh]
        rfl
      · rw [if_neg hsame, beq_false_of_ne hsame]

/-- Which keys are found where is a matter of the keys alone. -/
theorem index_insertAll_congr (s : Bindings α) {entries others : List (BitSeq × α)}
    (h : entries.map Prod.fst = others.map Prod.fst) :
    (s.insertAll entries).index = (s.insertAll others).index := by
  have hforget (entries : List (BitSeq × α)) : (s.insertAll entries).index =
      ((s.map fun _ => ()).insertAll ((entries.map Prod.fst).map fun key => (key, ()))).index := by
    rw [List.map_map]
    exact congrArg Bindings.index (map_insertAll (fun _ => ()) s entries)
  rw [hforget, h, ← hforget]

/-- Replaying a map onto another after one more key was bound is binding that key last. -/
theorem insertAll_insert (hs : s.Indexed) (hother : other.Indexed) (key : BitSeq) (value : α) :
    s.insertAll (other.insert key value).toList = (s.insertAll other.toList).insert key value := by
  have hbound := hother.insert key value
  have hall := hs.insertAll other.toList
  by_cases h : key ∈ other.keys
  · have hkeys : (other.insert key value).keys = other.keys := by rw [hother.keys_insert, if_pos h]
    have hmem : key ∈ (s.insertAll other.toList).keys := by
      rw [hs.keys_insertAll hother.nodup, List.mem_append, List.mem_filter]
      by_cases hold : key ∈ s.keys
      · exact .inl hold
      · exact .inr ⟨h, decide_eq_true hold⟩
    apply (hs.insertAll _).ext (hall.insert key value)
    · rw [hall.keys_insert, if_pos hmem, hs.keys_insertAll hbound.nodup,
        hs.keys_insertAll hother.nodup]
      exact congrArg (fun keys => s.keys ++ keys.filter (· ∉ s.keys)) hkeys
    · intro asked
      rw [hall.get?_insert, hs.get?_insertAll hbound.nodup, hs.get?_insertAll hother.nodup,
        ← hbound.get?_eq_lookup (List.Perm.refl _), hother.get?_insert]
      split
      · rfl
      · rw [hother.get?_eq_lookup (List.Perm.refl _)]
    · rw [hall.index_insert, if_pos hmem]
      exact index_insertAll_congr s hkeys
  · rw [hother.toList_insert_of_not_mem h, insertAll_append]
    rfl

/-- Entries may be bound onto a map before it is replayed onto another, or behind it. -/
theorem insertAll_insertAll (hs : s.Indexed) (hother : other.Indexed)
    (entries : List (BitSeq × α)) :
    s.insertAll (other.insertAll entries).toList =
      (s.insertAll other.toList).insertAll entries := by
  induction entries generalizing other with
  | nil => rfl
  | cons entry rest ih =>
      have hstep := ih (hother.insert entry.1 entry.2)
      rw [hs.insertAll_insert hother] at hstep
      exact hstep

end Indexed

/-! ## Merging -/

theorem merge_of_size_eq_zero (s : Bindings α) (h : other.size = 0) : s.merge other = s :=
  if_pos h

theorem merge_of_size_ne_zero (h : s.size = 0) (hother : other.size ≠ 0) :
    s.merge other = other := by
  rw [merge, if_neg hother, if_pos h]

theorem toList_of_size_eq_zero (h : s.size = 0) : s.toList = [] :=
  List.length_eq_zero_iff.mp h

/-- Onto a map that is not empty the entries of the other are bound one by one. -/
theorem merge_eq_insertAll (h : s.size ≠ 0) (other : Bindings α) :
    s.merge other = s.insertAll other.toList := by
  by_cases hother : other.size = 0
  · rw [merge_of_size_eq_zero s hother, toList_of_size_eq_zero hother]
    rfl
  · rw [merge, if_neg hother, if_neg h]

theorem size_le_size_insert (s : Bindings α) (key : BitSeq) (value : α) :
    s.size ≤ (s.insert key value).size := by
  unfold insert size
  split
  · exact Nat.le_of_eq Array.size_setIfInBounds.symm
  · rw [Array.size_push]
    exact Nat.le_succ _

theorem size_le_size_insertAll (s : Bindings α) (entries : List (BitSeq × α)) :
    s.size ≤ (s.insertAll entries).size := by
  induction entries generalizing s with
  | nil => exact Nat.le_refl _
  | cons entry rest ih =>
      exact Nat.le_trans (s.size_le_size_insert entry.1 entry.2) (ih (s.insert entry.1 entry.2))

theorem size_le_size_merge (s other : Bindings α) : s.size ≤ (s.merge other).size := by
  by_cases h : s.size = 0
  · rw [h]
    exact Nat.zero_le _
  · rw [merge_eq_insertAll h]
    exact s.size_le_size_insertAll other.toList

/-- The entries of two lists, one laid over the other: those of the first list in their places,
with the values of the second where it has the key, and then what is left of the second. -/
def overlay (first second : List (BitSeq × α)) : List (BitSeq × α) :=
  (first.map fun (key, value) => (key, (second.lookup key).getD value)) ++
    second.filter fun (key, _) => key ∉ first.map Prod.fst

namespace Indexed

theorem merge (hs : s.Indexed) (hother : other.Indexed) : (s.merge other).Indexed := by
  unfold Bindings.merge
  split
  · exact hs
  · split
    · exact hother
    · exact hs.insertAll other.toList

/-- What a merge lists is what binding one by one lists, also where one of the maps is empty and
the other is handed back. -/
theorem toList_merge_eq_insertAll (hs : s.Indexed) (hother : other.Indexed) :
    (s.merge other).toList = (s.insertAll other.toList).toList := by
  by_cases h : s.size = 0
  · obtain rfl := hs.eq_empty h
    have hnone : (empty : Bindings α).keys = [] := rfl
    have hloop : (empty.insertAll other.toList).toList = other.toList := by
      apply (hs.insertAll other.toList).toList_eq
      · rw [hs.keys_insertAll hother.nodup, hnone]
        simp only [List.not_mem_nil, not_false_eq_true, decide_true, List.filter_true,
          List.nil_append]
      · intro entry hmem
        rw [hs.get?_insertAll hother.nodup, lookup_of_mem hother.nodup hmem]
        rfl
    rw [hloop]
    by_cases hsize : other.size = 0
    · rw [merge_of_size_eq_zero _ hsize, toList_of_size_eq_zero hsize]
      rfl
    · rw [merge_of_size_ne_zero h hsize]
  · rw [merge_eq_insertAll h]

/-- The keys of the first map in their order and the new ones in theirs, each with the last of
its values. -/
theorem toList_merge (hs : s.Indexed) (hother : other.Indexed) :
    (s.merge other).toList = overlay s.toList other.toList := by
  rw [hs.toList_merge_eq_insertAll hother]
  apply (hs.insertAll other.toList).toList_eq
  · rw [hs.keys_insertAll hother.nodup, overlay, List.map_append, List.map_map, List.filter_map]
    rfl
  · intro entry hmem
    rw [hs.get?_insertAll hother.nodup]
    rcases List.mem_append.mp hmem with hold | hnew
    · obtain ⟨⟨key, value⟩, hentry, rfl⟩ := List.mem_map.mp hold
      rw [hs.get?_of_mem hentry]
      exact Option.or_some
    · rw [lookup_of_mem hother.nodup (List.mem_filter.mp hnew).1]
      rfl

theorem empty_merge (hs : s.Indexed) : empty.merge s = s := by
  by_cases h : s.size = 0
  · rw [merge_of_size_eq_zero _ h, hs.eq_empty h]
  · exact merge_of_size_ne_zero rfl h

theorem merge_self (hs : s.Indexed) : s.merge s = s := by
  by_cases h : s.size = 0
  · exact merge_of_size_eq_zero s h
  · rw [merge_eq_insertAll h]
    exact hs.insertAll_of_subset fun _ hmem => hmem

/-- Three maps may be merged from either end, because the last one may be replayed onto the second
before that is replayed onto the first. -/
theorem merge_assoc (hs : s.Indexed) (hother : other.Indexed) {last : Bindings α}
    (hlast : last.Indexed) : (s.merge other).merge last = s.merge (other.merge last) := by
  by_cases h : s.size = 0
  · rw [hs.eq_empty h, hother.empty_merge, (hother.merge hlast).empty_merge]
  by_cases hsize : other.size = 0
  · rw [merge_of_size_eq_zero s hsize, hother.eq_empty hsize, hlast.empty_merge]
  · have hmore : (s.merge other).size ≠ 0 :=
      Nat.ne_of_gt (Nat.lt_of_lt_of_le (Nat.pos_of_ne_zero h) (s.size_le_size_merge other))
    rw [merge_eq_insertAll hmore, merge_eq_insertAll h, merge_eq_insertAll h,
      merge_eq_insertAll hsize, hs.insertAll_insertAll hother]

/-- Binding a key is merging with a map that binds nothing else. -/
theorem insert_eq_merge (hs : s.Indexed) (key : BitSeq) (value : α) :
    s.insert key value = s.merge (ofList [(key, value)]) := by
  by_cases h : s.size = 0
  · obtain rfl := hs.eq_empty h
    exact (wellFormed_ofList [(key, value)]).indexed.empty_merge.symm
  · rw [merge_eq_insertAll h]
    rfl

end Indexed

end Bindings

open Eval

/-- Merging sets lays the second over the first, entry by entry, also where one of them is empty
and the other is handed back.  It is associative and idempotent, with the empty set as its unit,
and what a call of a function binds is merged with what the function remembers. -/
theorem Scope.merge_overlays {a b c : Scope} (ha : a.Indexed) (hb : b.Indexed) (hc : c.Indexed) :
    (a.merge b).toList = Bindings.overlay a.toList b.toList ∧
    (a.merge b).toList = (a.insertAll b.toList).toList ∧
    (a.merge b).merge c = a.merge (b.merge c) ∧
    (a.merge .empty = a ∧ Bindings.empty.merge a = a ∧ a.merge a = a) ∧
    ∀ key value, a.insert key value = a.merge (.ofList [(key, value)]) ∧
      ∀ limit pos depth body,
        (Value.function a key body).combineAt limit pos depth value =
          call limit depth pos >>= fun _ =>
            body.evalAt limit (a.merge (.ofList [(key, value)])) (depth + 1) := by
  refine ⟨ha.toList_merge hb, ha.toList_merge_eq_insertAll hb, ha.merge_assoc hb hc,
    ⟨Bindings.merge_of_size_eq_zero a rfl, ha.empty_merge, ha.merge_self⟩, ?_⟩
  intro key value
  constructor
  · exact ha.insert_eq_merge key value
  · intro limit pos depth body
    rw [Value.combineAt_function, ha.insert_eq_merge]

/-- A key that both sets bind keeps its place in the first and has its value from the second. -/
theorem Scope.merge_overlays_crossed :
    let a : Scope := .ofList [(.encode 0, .nat 7), (.encode 1, .null)]
    let b : Scope := .ofList [(.encode 2, .null), (.encode 0, .nat 8)]
    a.Indexed ∧ b.Indexed ∧
      (a.merge b).toList =
        [(.encode 0, .nat 8), (.encode 1, .null), (.encode 2, .null)] ∧
      (a.merge b).merge a = a.merge (b.merge a) := by
  intro a b
  have ha : a.Indexed := (Bindings.wellFormed_ofList _).indexed
  have hb : b.Indexed := (Bindings.wellFormed_ofList _).indexed
  obtain ⟨hlist, -, hassoc, -⟩ := Scope.merge_overlays ha hb ha
  exact ⟨ha, hb, hlist.trans rfl, hassoc⟩

end BitLang
