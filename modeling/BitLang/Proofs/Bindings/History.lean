/-
# Bindings and their history

A map is made by binding keys one by one, in lists or from another map.  The history of
a map lists all these bindings, the oldest first, and everything a map answers can be
read off its history: a key has the value that it was bound to last, and the place among
the keys that it was bound at first.

Entries and index are two views of the map.  They stay in step because binding a key
changes both or neither, and the index may go by the byte strings that stand for keys,
because these tell all keys apart.
-/

import BitLang.Proofs.BitSeq.Canonical
import BitLang.Proofs.BitSeq.Key
import BitLang.Proofs.Bindings
import Mathlib.Data.Finset.Card

namespace BitLang

/-! ## Lists without repetitions -/

section Lists

variable {κ β : Type} [DecidableEq κ]

theorem eraseDups_filter (p : κ → Bool) (l : List κ) :
    (l.filter p).eraseDups = l.eraseDups.filter p := by
  induction hlength : l.length using Nat.strong_induction_on generalizing l with
  | _ n ih =>
      cases l with
      | nil => rfl
      | cons a rest =>
          have hshort : (rest.filter fun b => !b == a).length < n := by
            rw [← hlength]
            exact Nat.lt_succ_of_le (List.length_filter_le ..)
          have hrest := ih _ hshort _ rfl
          rw [List.filter_filter] at hrest
          rw [List.eraseDups_cons, List.filter_cons, List.filter_cons]
          cases hp : p a with
          | true =>
              rw [if_pos rfl, if_pos rfl, List.eraseDups_cons, List.filter_filter, ← hrest]
              simp only [Bool.and_comm]
          | false =>
              rw [if_neg Bool.false_ne_true, if_neg Bool.false_ne_true, ← hrest]
              congr 1
              apply List.filter_congr
              intro b _
              by_cases hb : b = a
              · rw [hb, hp, Bool.false_and]
              · simp [hb]

theorem eraseDups_of_nodup {l : List κ} (h : l.Nodup) : l.eraseDups = l := by
  induction l with
  | nil => rfl
  | cons a rest ih =>
      obtain ⟨ha, hrest⟩ := List.nodup_cons.mp h
      have hall : rest.filter (fun b => !b == a) = rest := by
        apply List.filter_eq_self.mpr
        intro b hb
        have hne : b ≠ a := fun heq => ha (heq ▸ hb)
        simp [hne]
      rw [List.eraseDups_cons, hall, ih hrest]

/-- What comes later may be cleared of repetitions on its own first. -/
theorem eraseDups_append_eraseDups {first second : List κ} (h : second.eraseDups.Nodup) :
    (first ++ second.eraseDups).eraseDups = (first ++ second).eraseDups := by
  rw [List.eraseDups_append, List.eraseDups_append, List.removeAll, List.removeAll,
    eraseDups_filter, eraseDups_filter, eraseDups_of_nodup h]

/-- Where no key stands twice, an entry is the one that its key finds. -/
theorem lookup_of_mem {l : List (κ × β)} (h : (l.map Prod.fst).Nodup) {key : κ} {value : β}
    (hmem : (key, value) ∈ l) : l.lookup key = some value := by
  induction l with
  | nil => cases hmem
  | cons entry rest ih =>
      obtain ⟨hfirst, hrest⟩ := List.nodup_cons.mp h
      rcases List.mem_cons.mp hmem with rfl | hmem
      · exact List.lookup_cons_self
      · have hne : key ≠ entry.1 := fun heq => hfirst (heq ▸ List.mem_map_of_mem hmem)
        rw [List.lookup_cons, beq_false_of_ne hne]
        exact ih hrest hmem

omit [DecidableEq κ] in
theorem lookup_eq_none_iff_not_mem [BEq κ] [LawfulBEq κ] {l : List (κ × β)} {key : κ} :
    l.lookup key = none ↔ key ∉ l.map Prod.fst := by
  simp only [List.lookup_eq_none_iff, List.mem_map, bne_iff_ne, not_exists, not_and]
  exact forall₂_congr fun _ _ => ne_comm

/-- A new value in the place of a key does not show at other keys. -/
theorem lookup_set_of_ne {l : List (κ × β)} {i : Nat} {key other : κ}
    (h : (l.map Prod.fst)[i]? = some key) (hne : other ≠ key) (value : β) :
    (l.set i (key, value)).lookup other = l.lookup other := by
  induction l generalizing i with
  | nil => rfl
  | cons entry rest ih =>
      cases i with
      | zero =>
          have hkey : entry.1 = key := Option.some.inj h
          rw [List.set_cons_zero, List.lookup_cons, List.lookup_cons, hkey, beq_false_of_ne hne]
      | succ i =>
          rw [List.set_cons_succ, List.lookup_cons, List.lookup_cons, ih h]

end Lists

namespace Bindings

variable {α : Type} {s other : Bindings α} {history otherHistory : List (BitSeq × α)}

/-! ## Looking up -/

/-- The place of a key holds its entry. -/
theorem exists_of_getElem?_keys {key : BitSeq} {i : Nat} (h : s.keys[i]? = some key) :
    ∃ value, s.entries[i]? = some (key, value) ∧ (key, value) ∈ s.toList := by
  rw [keys, List.getElem?_map] at h
  obtain ⟨⟨key, value⟩, hentry, rfl⟩ := Option.map_eq_some_iff.mp h
  exact ⟨value, by rw [← hentry, toList, Array.getElem?_toList], List.mem_of_getElem? hentry⟩

namespace Indexed

/-- Looking up finds what a list without repeated keys says, read from either end. -/
theorem get?_eq_lookup (hs : s.Indexed) {l : List (BitSeq × α)} (hl : l.Perm s.toList)
    (key : BitSeq) : s.get? key = l.lookup key := by
  have hkeys : (l.map Prod.fst).Perm s.keys := hl.map Prod.fst
  unfold get?
  cases hindex : s.index[key]? with
  | none =>
      have habsent := (hs.index_eq_none_iff key).mp hindex
      exact (lookup_eq_none_iff_not_mem.mpr (fun hmem => habsent (hkeys.mem_iff.mp hmem))).symm
  | some i =>
      obtain ⟨value, hentry, hmem⟩ :=
        exists_of_getElem?_keys ((hs.index_eq_some_iff key i).mp hindex)
      have hlookup := lookup_of_mem (hkeys.nodup_iff.mpr hs.nodup) (hl.mem_iff.mpr hmem)
      simp only [hentry, Option.map_some, hlookup]

/-- Binding a key again puts the new value in its place. -/
theorem toList_insert_of_getElem? (hs : s.Indexed) {key : BitSeq} {i : Nat}
    (h : s.keys[i]? = some key) (value : α) :
    (s.insert key value).toList = s.toList.set i (key, value) := by
  rw [insert_of_index_eq_some ((hs.index_eq_some_iff key i).mpr h), toList,
    Array.toList_setIfInBounds]
  rfl

theorem get?_insert_self (hs : s.Indexed) (key : BitSeq) (value : α) :
    (s.insert key value).get? key = some value := by
  have hmem : (key, value) ∈ (s.insert key value).toList := by
    by_cases h : key ∈ s.keys
    · obtain ⟨i, hi⟩ := List.mem_iff_getElem?.mp h
      obtain ⟨old, hentry, -⟩ := exists_of_getElem?_keys hi
      obtain ⟨hlt, -⟩ := Array.getElem?_eq_some_iff.mp hentry
      rw [hs.toList_insert_of_getElem? hi]
      exact List.mem_set hlt _
    · rw [hs.toList_insert_of_not_mem h]
      exact List.mem_append_right _ (List.mem_singleton_self _)
  rw [(hs.insert key value).get?_eq_lookup (List.Perm.refl _)]
  exact lookup_of_mem (hs.insert key value).nodup hmem

theorem get?_insert_of_ne (hs : s.Indexed) {key other : BitSeq} (hne : other ≠ key) (value : α) :
    (s.insert key value).get? other = s.get? other := by
  rw [(hs.insert key value).get?_eq_lookup (List.Perm.refl _),
    hs.get?_eq_lookup (List.Perm.refl _)]
  by_cases h : key ∈ s.keys
  · obtain ⟨i, hi⟩ := List.mem_iff_getElem?.mp h
    rw [hs.toList_insert_of_getElem? hi, lookup_set_of_ne hi hne]
  · have hnone : [(key, value)].lookup other = none := by
      rw [List.lookup_cons, beq_false_of_ne hne]
      rfl
    rw [hs.toList_insert_of_not_mem h, List.lookup_append, hnone, Option.or_none]

end Indexed

/-! ## The history of a map -/

/-- A map that was made by binding keys and merging maps, and all the bindings on the
way to it, the oldest first. -/
inductive Made : Bindings α → List (BitSeq × α) → Prop
  | empty : Made .empty []
  | insert {s : Bindings α} {history : List (BitSeq × α)} : Made s history →
      ∀ (key : BitSeq) (value : α), Made (s.insert key value) (history ++ [(key, value)])
  | merge {s other : Bindings α} {history otherHistory : List (BitSeq × α)} : Made s history →
      Made other otherHistory → Made (s.merge other) (history ++ otherHistory)
  | ofList (entries : List (BitSeq × α)) : Made (.ofList entries) entries

/-- The map is well-formed, its keys stand in the order in which they were first bound,
and each has the value that it was last bound to. -/
structure Follows (s : Bindings α) (history : List (BitSeq × α)) : Prop where
  wellFormed : s.WellFormed
  keys_eq : s.keys = (history.map Prod.fst).eraseDups
  get?_eq : ∀ key, s.get? key = history.reverse.lookup key

theorem follows_empty : (empty : Bindings α).Follows [] where
  wellFormed := wellFormed_empty
  keys_eq := rfl
  get?_eq key := wellFormed_empty.indexed.get?_eq_lookup (List.Perm.refl _) key

namespace Follows

theorem mem_keys_iff (h : s.Follows history) (key : BitSeq) :
    key ∈ s.keys ↔ key ∈ history.map Prod.fst := by
  rw [h.keys_eq, List.mem_eraseDups]

/-- One more binding. -/
theorem insert (h : s.Follows history) (key : BitSeq) (value : α) :
    (s.insert key value).Follows (history ++ [(key, value)]) where
  wellFormed := h.wellFormed.insert key value
  keys_eq := by
    have hs := h.wellFormed.indexed
    rw [List.map_append, List.eraseDups_append, ← h.keys_eq, List.map_singleton,
      List.cons_removeAll]
    by_cases hmem : key ∈ s.keys
    · obtain ⟨i, hi⟩ := List.mem_iff_getElem?.mp hmem
      have hbound : ¬(history.map Prod.fst).contains key = false := by
        rw [Bool.not_eq_false, List.contains_iff_mem]
        exact (h.mem_keys_iff key).mp hmem
      rw [if_neg hbound, hs.keys_insert_of_mem ((hs.index_eq_some_iff key i).mpr hi)]
      exact (List.append_nil _).symm
    · have hfresh : (history.map Prod.fst).contains key = false := by
        rw [← Bool.not_eq_true, List.contains_iff_mem]
        exact fun hbound => hmem ((h.mem_keys_iff key).mpr hbound)
      rw [if_pos hfresh, hs.keys_insert_of_not_mem hmem]
      rfl
  get?_eq key' := by
    rw [List.reverse_append, List.reverse_singleton, List.singleton_append, List.lookup_cons]
    by_cases hkey : key' = key
    · rw [hkey, h.wellFormed.indexed.get?_insert_self, beq_self_eq_true]
    · rw [h.wellFormed.indexed.get?_insert_of_ne hkey, beq_false_of_ne hkey, h.get?_eq]

/-- One binding after another. -/
theorem insertAll (h : s.Follows history) (entries : List (BitSeq × α)) :
    (s.insertAll entries).Follows (history ++ entries) := by
  induction entries generalizing s history with
  | nil =>
      rw [List.append_nil]
      exact h
  | cons entry rest ih =>
      have hrest := ih (h.insert entry.1 entry.2)
      rw [List.append_assoc] at hrest
      exact hrest

/-- A map without entries has no history. -/
theorem history_eq_nil (h : s.Follows history) (hsize : s.size = 0) : history = [] := by
  rw [List.eq_nil_iff_forall_not_mem]
  intro entry hmem
  have hkey := (h.mem_keys_iff entry.1).mpr (List.mem_map_of_mem hmem)
  have hkeys : s.keys = [] := by
    apply List.length_eq_zero_iff.mp
    rw [← size_eq_length_keys]
    exact hsize
  rw [hkeys] at hkey
  cases hkey

/-- The bindings of another map come after all earlier ones. -/
theorem merge (h : s.Follows history) (hother : other.Follows otherHistory) :
    (s.merge other).Follows (history ++ otherHistory) := by
  unfold Bindings.merge
  split
  · next hempty =>
      rw [hother.history_eq_nil hempty, List.append_nil]
      exact h
  · split
    · next hempty =>
        rw [h.history_eq_nil hempty]
        exact hother
    · have hall := h.insertAll other.toList
      refine ⟨hall.wellFormed, ?_, fun key => ?_⟩
      · have hnodup := hother.wellFormed.nodup
        rw [hother.keys_eq] at hnodup
        rw [hall.keys_eq, List.map_append, List.map_append, ← eraseDups_append_eraseDups hnodup,
          ← hother.keys_eq]
        rfl
      · rw [hall.get?_eq, List.reverse_append, List.reverse_append, List.lookup_append,
          List.lookup_append, ← hother.get?_eq,
          hother.wellFormed.indexed.get?_eq_lookup (List.reverse_perm _)]

end Follows

theorem Made.follows (h : Made s history) : s.Follows history := by
  induction h with
  | empty => exact follows_empty
  | insert _ key value ih => exact ih.insert key value
  | merge _ _ ih ihother => exact ih.merge ihother
  | ofList entries => exact follows_empty.insertAll entries

theorem Follows.size_eq (h : s.Follows history) :
    s.size = (history.map Prod.fst).toFinset.card := by
  have hsame : (history.map Prod.fst).toFinset = s.keys.toFinset := by
    ext key
    rw [List.mem_toFinset, List.mem_toFinset, h.mem_keys_iff]
  rw [hsame, List.toFinset_card_of_nodup h.wellFormed.nodup, ← size_eq_length_keys]
  rfl

theorem Follows.lookup_of_mem_toList (h : s.Follows history) {entry : BitSeq × α}
    (hmem : entry ∈ s.toList) : history.reverse.lookup entry.1 = some entry.2 := by
  rw [← h.get?_eq, h.wellFormed.indexed.get?_eq_lookup (List.Perm.refl _)]
  exact lookup_of_mem h.wellFormed.nodup hmem

theorem Follows.mem_history (h : s.Follows history) {entry : BitSeq × α}
    (hmem : entry ∈ s.toList) : entry ∈ history := by
  obtain ⟨before, after, hhistory, -⟩ := List.lookup_eq_some_iff.mp (h.lookup_of_mem_toList hmem)
  rw [← List.mem_reverse, hhistory]
  exact List.mem_append_right _ (List.mem_cons_self ..)

/-- The index may as well go by the byte strings that stand for keys. -/
theorem Indexed.index_eq_some_iff_key (hs : s.Indexed) (key : BitSeq) (i : Nat) :
    s.index[key]? = some i ↔ (s.keys.map BitSeq.key)[i]? = some key.key := by
  rw [hs.index_eq_some_iff, List.getElem?_map, Option.map_eq_some_iff]
  constructor
  · exact fun h => ⟨key, h, rfl⟩
  · rintro ⟨key', h, hkey⟩
    rw [h, BitSeq.key_inj.mp hkey]

/-- Canonical keys are the same to a map exactly if they have the same bits, and as many. -/
theorem Indexed.get?_insert_of_canonical (hs : s.Indexed) {key key' : BitSeq}
    (hkey : key.Canonical) (hkey' : key'.Canonical) (value : α) :
    (s.insert key value).get? key' =
      if key.len = key'.len ∧ key.toList = key'.toList then some value else s.get? key' := by
  by_cases hsame : key' = key
  · rw [hsame, hs.get?_insert_self, if_pos ⟨rfl, rfl⟩]
  · have hbits : ¬(key.len = key'.len ∧ key.toList = key'.toList) :=
      fun h => hsame ((hkey.toList_inj hkey').mp h.2).symm
    rw [hs.get?_insert_of_ne hsame, if_neg hbits]

/-- A map, however it was made, keeps its entries and its index in step and answers what
its history says.  Binding a key leaves all other entries in their places. -/
theorem Made.answers_history (h : Made s history) :
    (s.keys.Nodup ∧
      ∀ (key : BitSeq) (i : Nat),
        s.index[key]? = some i ↔ (s.keys.map BitSeq.key)[i]? = some key.key) ∧
    (∀ key, s.get? key = history.reverse.lookup key) ∧
    (∀ key, s.get? key = none ↔ key ∉ history.map Prod.fst) ∧
    s.size = (history.map Prod.fst).toFinset.card ∧
    s.keys = (history.map Prod.fst).eraseDups ∧
    (∀ entry ∈ s.toList, history.reverse.lookup entry.1 = some entry.2) ∧
    (∀ key value i, s.keys[i]? = some key →
      (s.insert key value).toList = s.toList.set i (key, value)) ∧
    (∀ key value, key ∉ s.keys → (s.insert key value).toList = s.toList ++ [(key, value)]) ∧
    ∀ key key' value, key.Canonical → key'.Canonical → (s.insert key value).get? key' =
      if key.len = key'.len ∧ key.toList = key'.toList then some value else s.get? key' := by
  have hfollows := h.follows
  have hs := hfollows.wellFormed.indexed
  refine ⟨⟨hs.nodup, hs.index_eq_some_iff_key⟩, hfollows.get?_eq, ?_, hfollows.size_eq,
    hfollows.keys_eq, ?_, ?_, ?_, ?_⟩
  · intro key
    rw [hs.get?_eq_lookup (List.Perm.refl _), lookup_eq_none_iff_not_mem]
    exact not_congr (hfollows.mem_keys_iff key)
  · intro entry hmem
    exact hfollows.lookup_of_mem_toList hmem
  · intro key value i hi
    exact hs.toList_insert_of_getElem? hi value
  · intro key value hkey
    exact hs.toList_insert_of_not_mem hkey value
  · intro key key' value hkey hkey'
    exact hs.get?_insert_of_canonical hkey hkey' value

/-- The keys `0` and `00` fill the same byte and are two keys all the same. -/
theorem zeros_answer_history :
    let zero := BitSeq.ofDigits [0x30]
    let zeros := BitSeq.ofDigits [0x30, 0x30]
    let s := (empty.insert zero 1).merge (ofList [(zeros, 2), (zero, 3)])
    zero.bytes = zeros.bytes ∧ s.keys = [zero, zeros] ∧ s.size = 2 ∧ s.get? zero = some 3 ∧
      s.get? zeros = some 2 := by
  intro zero zeros s
  have hmade : Made s [(zero, 1), (zeros, 2), (zero, 3)] :=
    .merge (.insert .empty zero 1) (.ofList [(zeros, 2), (zero, 3)])
  obtain ⟨-, hget, -, hsize, hkeys, -⟩ := Made.answers_history hmade
  refine ⟨by decide, hkeys.trans (by decide), hsize.trans (by decide), ?_, ?_⟩
  · rw [hget]
    decide
  · rw [hget]
    decide

end Bindings

end BitLang
