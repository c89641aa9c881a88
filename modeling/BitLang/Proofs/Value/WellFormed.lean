/-
# Well-formed values

A value is well-formed if it is there, its bit sequences are canonical, its sets and
the scopes of its functions are well-formed bindings of such values to canonical keys,
and the literals in the bodies of its functions are canonical.  Binding, merging and
looking up keep to such values.

What is asked of the bindings themselves is left open, as long as binding a key keeps it.
A value is valid if every index tells the places of the keys, and well-formed if it is the
very index that the keys get when they are bound in order.
-/

import BitLang.Proofs.Bindings
import BitLang.Proofs.Expr.Literals
import BitLang.Value.Basic

namespace BitLang

namespace Bindings

variable {α : Type} {P : α → Prop} {s other : Bindings α}

/-- Every entry of the map after a key was bound is the one that was bound or was there
before. -/
theorem mem_toList_insert {key : BitSeq} {value : α} {entry : BitSeq × α}
    (h : entry ∈ (s.insert key value).toList) : entry = (key, value) ∨ entry ∈ s.toList := by
  unfold insert at h
  split at h
  · rw [toList, Array.toList_setIfInBounds] at h
    exact (List.mem_or_eq_of_mem_set h).symm
  · rw [toList, Array.toList_push] at h
    rcases List.mem_append.mp h with hold | hnew
    · exact .inr hold
    · exact .inl (List.mem_singleton.mp hnew)

theorem exists_mem_of_get? {key : BitSeq} {value : α} (h : s.get? key = some value) :
    ∃ entry ∈ s.toList, entry.2 = value := by
  unfold get? at h
  split at h
  · obtain ⟨entry, hentry, hvalue⟩ := Option.map_eq_some_iff.mp h
    exact ⟨entry, Array.mem_toList_iff.mpr (Array.mem_of_getElem? hentry), hvalue⟩
  · cases h

/-- A property of maps that the empty map has and that binding a key keeps. -/
structure Kept (W : Bindings α → Prop) : Prop where
  empty : W .empty
  insert : ∀ {s : Bindings α}, W s → ∀ (key : BitSeq) (value : α), W (s.insert key value)

theorem kept_wellFormed : Kept (@WellFormed α) := ⟨wellFormed_empty, WellFormed.insert⟩

theorem kept_indexed : Kept (@Indexed α) := ⟨wellFormed_empty.indexed, Indexed.insert⟩

/-- The map has the property `W`, its keys are canonical, and its values have the property
`P`. -/
structure Sound (W : Bindings α → Prop) (P : α → Prop) (s : Bindings α) : Prop where
  wellFormed : W s
  entries : ∀ entry ∈ s.toList, entry.1.Canonical ∧ P entry.2

variable {W : Bindings α → Prop}

theorem sound_empty (hW : Kept W) (P : α → Prop) : (empty : Bindings α).Sound W P :=
  ⟨hW.empty, fun _ hmem => nomatch hmem⟩

namespace Sound

theorem insert (hW : Kept W) (hs : s.Sound W P) {key : BitSeq} {value : α} (hkey : key.Canonical)
    (hvalue : P value) : (s.insert key value).Sound W P := by
  refine ⟨hW.insert hs.wellFormed key value, fun entry hmem => ?_⟩
  rcases mem_toList_insert hmem with rfl | hold
  · exact ⟨hkey, hvalue⟩
  · exact hs.entries entry hold

theorem insertAll (hW : Kept W) (hs : s.Sound W P) {entries : List (BitSeq × α)}
    (h : ∀ entry ∈ entries, entry.1.Canonical ∧ P entry.2) :
    (s.insertAll entries).Sound W P := by
  induction entries generalizing s with
  | nil => exact hs
  | cons entry rest ih =>
      obtain ⟨hentry, hrest⟩ := List.forall_mem_cons.mp h
      exact ih (hs.insert hW hentry.1 hentry.2) hrest

theorem merge (hW : Kept W) (hs : s.Sound W P) (hother : other.Sound W P) :
    (s.merge other).Sound W P := by
  unfold Bindings.merge
  split
  · exact hs
  · split
    · exact hother
    · exact hs.insertAll hW hother.entries

theorem of_get? (hs : s.Sound W P) {key : BitSeq} {value : α} (h : s.get? key = some value) :
    P value := by
  obtain ⟨entry, hmem, rfl⟩ := exists_mem_of_get? h
  exact (hs.entries entry hmem).2

theorem of_mem_values (hs : s.Sound W P) {value : α} (h : value ∈ s.values) : P value := by
  obtain ⟨entry, hmem, rfl⟩ := List.mem_map.mp h
  exact (hs.entries entry hmem).2

theorem of_mem_keys (hs : s.Sound W P) {key : BitSeq} (h : key ∈ s.keys) : key.Canonical := by
  obtain ⟨entry, hmem, rfl⟩ := List.mem_map.mp h
  exact (hs.entries entry hmem).1

end Sound

end Bindings

/-- The value is there, whatever it is made of is canonical, and its sets and scopes have
the property `W`. -/
inductive Value.MadeOf (W : Scope → Prop) : Value → Prop
  | null : MadeOf W .null
  | bits {b : BitSeq} : b.Canonical → MadeOf W (.bits b)
  | set {s : Scope} : W s → (∀ entry ∈ s.toList, entry.1.Canonical) →
      (∀ entry ∈ s.toList, MadeOf W entry.2) → MadeOf W (.set s)
  | function {scope : Scope} {pattern : BitSeq} {body : Expr} : W scope →
      (∀ entry ∈ scope.toList, entry.1.Canonical) →
      (∀ entry ∈ scope.toList, MadeOf W entry.2) → pattern.Canonical → body.Canonical →
      MadeOf W (.function scope pattern body)

/-- The value is there, whatever it is made of is canonical, and its sets and scopes are
bound in order. -/
abbrev Value.WellFormed : Value → Prop := MadeOf Bindings.WellFormed

/-- The value is there, whatever it is made of is canonical, and its sets and scopes have
distinct keys and an index that tells their places. -/
abbrev Value.Valid : Value → Prop := MadeOf Bindings.Indexed

/-- The scope has the property `W` and maps canonical keys to values made of such scopes. -/
abbrev Bindings.IsScope (W : Scope → Prop) (scope : Scope) : Prop :=
  scope.Sound W (Value.MadeOf W)

namespace Value

variable {W : Scope → Prop}

theorem madeOf_nat (x : Nat) : (nat x).MadeOf W := .bits (BitSeq.canonical_encode x)

theorem MadeOf.isAbsent_eq_false {v : Value} (h : v.MadeOf W) : v.isAbsent = false := by
  cases h <;> rfl

theorem madeOf_bits_iff {b : BitSeq} : (bits b).MadeOf W ↔ b.Canonical :=
  ⟨fun | .bits h => h, .bits⟩

theorem madeOf_set_iff {s : Scope} : (set s).MadeOf W ↔ s.IsScope W := by
  constructor
  · rintro ⟨⟩
    next hs hkeys hvalues =>
      exact ⟨hs, fun entry hmem => ⟨hkeys entry hmem, hvalues entry hmem⟩⟩
  · intro h
    exact .set h.wellFormed (fun entry hmem => (h.entries entry hmem).1)
      (fun entry hmem => (h.entries entry hmem).2)

theorem madeOf_function_iff {scope : Scope} {pattern : BitSeq} {body : Expr} :
    (function scope pattern body).MadeOf W ↔
      scope.IsScope W ∧ pattern.Canonical ∧ body.Canonical := by
  constructor
  · rintro ⟨⟩
    next hs hkeys hvalues hpattern hbody =>
      exact ⟨⟨hs, fun entry hmem => ⟨hkeys entry hmem, hvalues entry hmem⟩⟩, hpattern, hbody⟩
  · rintro ⟨h, hpattern, hbody⟩
    exact .function h.wellFormed (fun entry hmem => (h.entries entry hmem).1)
      (fun entry hmem => (h.entries entry hmem).2) hpattern hbody

end Value

end BitLang
