/-
# Values apart from the scopes in them

A function remembers the scope it was made in.  Two values agree apart from their scopes
if they differ in nothing else: the same bits, the same keys in the same order with values
that agree again, functions of the same pattern and the same body.

The bodies do not read their scope, which is what makes such values hard to tell apart:
they have the same kind, the same place in a look-up, and they are printed alike.
-/

import BitLang.Program
import BitLang.Proofs.Value.WellFormed
import BitLang.Proofs.Value.Wire

namespace BitLang

namespace Expr

/-- The node does not stand for the scope. -/
def IsNotScope : Expr → Prop
  | scope _ => False
  | _ => True

/-- No node of the tree stands for the scope. -/
def ScopeFree (e : Expr) : Prop := e.All IsNotScope

end Expr

namespace Bindings

variable {α : Type} {P : α → Prop} {s other : Bindings α}

/-- Every value that is bound has the property. -/
def ForallValues (P : α → Prop) (s : Bindings α) : Prop := ∀ entry ∈ s.toList, P entry.2

theorem forallValues_empty (P : α → Prop) : (empty : Bindings α).ForallValues P :=
  fun _ hmem => nomatch hmem

namespace ForallValues

theorem insert (h : s.ForallValues P) (key : BitSeq) {value : α} (hvalue : P value) :
    (s.insert key value).ForallValues P := by
  intro entry hmem
  rcases mem_toList_insert hmem with rfl | hold
  · exact hvalue
  · exact h entry hold

theorem insertAll (h : s.ForallValues P) {entries : List (BitSeq × α)}
    (hentries : ∀ entry ∈ entries, P entry.2) : (s.insertAll entries).ForallValues P := by
  induction entries generalizing s with
  | nil => exact h
  | cons entry rest ih =>
      obtain ⟨hentry, hrest⟩ := List.forall_mem_cons.mp hentries
      exact ih (h.insert entry.1 hentry) hrest

theorem merge (h : s.ForallValues P) (hother : other.ForallValues P) :
    (s.merge other).ForallValues P := by
  unfold Bindings.merge
  split
  · exact h
  · split
    · exact hother
    · exact h.insertAll hother

theorem of_get? (h : s.ForallValues P) {key : BitSeq} {value : α}
    (hget : s.get? key = some value) : P value := by
  obtain ⟨entry, hmem, rfl⟩ := exists_mem_of_get? hget
  exact h entry hmem

end ForallValues

end Bindings

/-- The values differ at most in the scopes that their functions remember, and none of
these functions reads its scope.  Two sets are given as one, of pairs of values. -/
inductive Value.AlikeUpToScopes : Value → Value → Prop
  | absent : AlikeUpToScopes .absent .absent
  | null : AlikeUpToScopes .null .null
  | bits (b : BitSeq) : AlikeUpToScopes (.bits b) (.bits b)
  | set {pairs : Bindings (Value × Value)} :
      (∀ entry ∈ pairs.toList, AlikeUpToScopes entry.2.1 entry.2.2) →
      AlikeUpToScopes (.set (pairs.map Prod.fst)) (.set (pairs.map Prod.snd))
  | function {scope scope' : Scope} {pattern : BitSeq} {body : Expr} : body.ScopeFree →
      AlikeUpToScopes (.function scope pattern body) (.function scope' pattern body)

/-- Each pair is of values that agree apart from their scopes. -/
abbrev Bindings.AlikeInPairs (pairs : Bindings (Value × Value)) : Prop :=
  pairs.ForallValues fun pair => pair.1.AlikeUpToScopes pair.2

namespace Value.AlikeUpToScopes

variable {v w : Value}

theorem kind_eq (h : v.AlikeUpToScopes w) : v.kind = w.kind := by
  cases h <;> rfl

theorem isAbsent_eq (h : v.AlikeUpToScopes w) : v.isAbsent = w.isAbsent := by
  cases h <;> rfl

/-! ## What is shown of them -/

/-- A function is shown by its pattern, so an inspection looks at no scope. -/
theorem ofValue_eq (h : v.AlikeUpToScopes w) (depth : Nat) :
    Inspection.ofValue depth v = Inspection.ofValue depth w := by
  induction h generalizing depth with
  | absent | null | bits => rfl
  | function => cases depth <;> rfl
  | set _ ih =>
      cases depth with
      | zero => simp only [Inspection.ofValue, Bindings.size_map]
      | succ depth =>
          simp only [Inspection.ofValue, Bindings.size_map, Bindings.toList_map, ← List.map_take,
            List.map_map, Inspection.set.injEq, true_and]
          apply List.map_congr_left
          intro entry hmem
          exact congrArg (Prod.mk entry.1) (ih entry (List.mem_of_mem_take hmem) depth)

theorem ofEntryList?_eq {pairs : List (BitSeq × Value × Value)}
    (h : ∀ entry ∈ pairs, Wire.ofValue? entry.2.1 = Wire.ofValue? entry.2.2) :
    Wire.ofEntryList? (pairs.map fun (key, pair) => (key, pair.1)) =
      Wire.ofEntryList? (pairs.map fun (key, pair) => (key, pair.2)) := by
  induction pairs with
  | nil => rfl
  | cons entry rest ih =>
      obtain ⟨hentry, hrest⟩ := List.forall_mem_cons.mp h
      rw [List.map_cons, List.map_cons, Wire.ofEntryList?_cons, Wire.ofEntryList?_cons, hentry,
        ih hrest]

/-- A function does not travel, so neither does a scope. -/
theorem ofValue?_eq (h : v.AlikeUpToScopes w) : Wire.ofValue? v = Wire.ofValue? w := by
  induction h with
  | absent | null | bits | function => rfl
  | set _ ih =>
      rw [Wire.ofValue?_set, Wire.ofValue?_set, Bindings.toList_map, Bindings.toList_map]
      exact congrArg (Option.map Wire.setItem) (ofEntryList?_eq ih)

/-- Values that agree apart from their scopes are printed alike, in every format. -/
theorem print_eq (h : v.AlikeUpToScopes w) (format : Bytes) : v.print format = w.print format := by
  have hformat : v.format = w.format := congrArg Inspection.pretty (h.ofValue_eq _)
  have hmarshal : v.marshal? = w.marshal? := congrArg (Option.map _) h.ofValue?_eq
  unfold Value.print
  rw [hformat, hmarshal]
  cases h <;> rfl

end Value.AlikeUpToScopes

end BitLang
