/-
# Spans in trees and values

A tree carries the stretch of source of each of its nodes.  A value holds trees too:
the bodies of the functions in it, also those that sit in the scope of another
function.  Erasing puts every span to nowhere and leaves all else as it is, so two
trees or two values agree up to spans exactly when their erasures are the same.
-/

import BitLang.Proofs.Bindings
import BitLang.Value.Basic

namespace BitLang

/-- The span of something that does not stand in the text. -/
def Span.none : Span := ⟨.none, .none⟩

namespace Expr

mutual

/-- The tree with all its spans erased. -/
def eraseSpans : Expr → Expr
  | absent => absent
  | literal _ bits => literal .none bits
  | scope _ => scope .none
  | set _ entries => set .none (eraseEntries entries)
  | function _ pattern body => function .none pattern.eraseSpans body.eraseSpans
  | combine _ left right => combine .none left.eraseSpans right.eraseSpans

/-- The entries of a set with all their spans erased. -/
def eraseEntries : List (Expr × Expr) → List (Expr × Expr)
  | [] => []
  | (key, value) :: rest => (key.eraseSpans, value.eraseSpans) :: eraseEntries rest

end

@[simp]
theorem pos_eraseSpans (e : Expr) : e.eraseSpans.pos = .none := by
  cases e <;> simp only [eraseSpans] <;> rfl

/-- Taking a chain apart does not look at spans. -/
theorem spine_eraseSpans (e : Expr) (others : List (Span × Expr)) :
    e.eraseSpans.spine (others.map fun (_, operand) => (.none, operand.eraseSpans)) =
      ((e.spine others).1.eraseSpans,
        (e.spine others).2.map fun (_, operand) => (.none, operand.eraseSpans)) := by
  fun_induction spine e others with
  | case1 others span left right ih => simpa only [eraseSpans, spine, List.map_cons] using ih
  | case2 head others hhead =>
      cases head with
      | combine span left right => exact absurd rfl (hhead span left right)
      | _ => simp only [eraseSpans, spine]

end Expr

namespace Value

/-- Induction over a value and the values it holds: those of a set, and those of the
scope that a function remembers. -/
@[elab_as_elim]
theorem induction {P : Value → Prop} (absent : P absent) (null : P null)
    (bits : ∀ b, P (bits b)) (set : ∀ s : Scope, (∀ v ∈ s.values, P v) → P (set s))
    (function : ∀ (scope : Scope) pattern body, (∀ v ∈ scope.values, P v) →
      P (function scope pattern body)) (v : Value) : P v :=
  @Value.rec P (fun s => ∀ v ∈ s.values, P v) (fun entries => ∀ entry ∈ entries.toList, P entry.2)
    (fun entries => ∀ entry ∈ entries, P entry.2) (fun entry => P entry.2)
    absent null bits set function
    (fun entries index h v hmem => by
      obtain ⟨entry, hentry, rfl⟩ := List.mem_map.mp hmem
      exact h entry hentry)
    (fun entries h => h) (fun entry hmem => nomatch hmem)
    (fun first rest hfirst hrest entry hmem => by
      rcases List.mem_cons.mp hmem with rfl | hmem
      · exact hfirst
      · exact hrest entry hmem)
    (fun key value h => h) v

mutual

/-- The value with the spans of all bodies in it erased. -/
def eraseSpans : Value → Value
  | absent => absent
  | null => null
  | bits b => bits b
  | set ⟨⟨entries⟩, index⟩ => set ⟨⟨eraseEntries entries⟩, index⟩
  | function ⟨⟨entries⟩, index⟩ pattern body =>
    function ⟨⟨eraseEntries entries⟩, index⟩ pattern body.eraseSpans

/-- The entries of a set with the spans of all bodies in them erased. -/
def eraseEntries : List (BitSeq × Value) → List (BitSeq × Value)
  | [] => []
  | (key, value) :: rest => (key, value.eraseSpans) :: eraseEntries rest

end

end Value

/-- The scope with the spans of all bodies in it erased. -/
def Bindings.eraseSpans (scope : Scope) : Scope := scope.map Value.eraseSpans

theorem Bindings.eraseSpans_empty : (.empty : Scope).eraseSpans = .empty := Bindings.map_empty _

namespace Value

theorem eraseEntries_eq_map (entries : List (BitSeq × Value)) :
    eraseEntries entries = entries.map fun (key, value) => (key, value.eraseSpans) := by
  induction entries with
  | nil => rfl
  | cons entry rest ih => rw [eraseEntries, ih, List.map_cons]

theorem eraseSpans_set (s : Scope) : (set s).eraseSpans = set s.eraseSpans := by
  rcases s with ⟨⟨entries⟩, index⟩
  simp only [eraseSpans, eraseEntries_eq_map, Bindings.eraseSpans, Bindings.map, List.map_toArray]

theorem eraseSpans_function (scope : Scope) (pattern : BitSeq) (body : Expr) :
    (function scope pattern body).eraseSpans =
      function scope.eraseSpans pattern body.eraseSpans := by
  rcases scope with ⟨⟨entries⟩, index⟩
  simp only [eraseSpans, eraseEntries_eq_map, Bindings.eraseSpans, Bindings.map, List.map_toArray]

@[simp]
theorem kind_eraseSpans (v : Value) : v.eraseSpans.kind = v.kind := by
  cases v with
  | set s => rw [eraseSpans_set]; rfl
  | function scope pattern body => rw [eraseSpans_function]; rfl
  | _ => rfl

@[simp]
theorem isAbsent_eraseSpans (v : Value) : v.eraseSpans.isAbsent = v.isAbsent := by
  cases v with
  | set s => rw [eraseSpans_set]; rfl
  | function scope pattern body => rw [eraseSpans_function]; rfl
  | _ => rfl

end Value

end BitLang
