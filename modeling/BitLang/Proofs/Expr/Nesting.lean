/-
# Stretches nest

The stretches of source in a tree that was read are nested as the tree is.  Every stretch is one of
the text, what a node holds lies within the stretch of the node, and what stands side by side comes
in the order of the text.  An absent operand has no stretch and is passed over.

That a tree stands among the tokens of its text says more than this, but says it of offsets between
which a part stands; here these are read off the stretches themselves.
-/

import BitLang.Proofs.Expr.Standing

namespace BitLang

/-- The stretch does not stop before it starts, nor behind the end of the text. -/
def Span.InText (source : Bytes) (span : Span) : Prop :=
  span.start.offset ≤ span.stop.offset ∧ span.stop.offset ≤ source.length

namespace Expr

/-- The expression lies between two offsets, if it is there. -/
def Between (first last : Nat) (e : Expr) : Prop :=
  ∀ span, e.span? = some span → first ≤ span.start.offset ∧ span.stop.offset ≤ last

/-- The expression lies within the stretch, if it is there. -/
def Within (span : Span) (e : Expr) : Prop := e.Between span.start.offset span.stop.offset

/-- The one expression does not stop behind the start of the other, if both are there. -/
def Before (e e' : Expr) : Prop :=
  ∀ span span', e.span? = some span → e'.span? = some span' →
    span.stop.offset ≤ span'.start.offset

/-- A key comes before its value, with an equals sign between them.  A key that was made up has no
width and is where its value starts. -/
inductive EntryNested (source : Bytes) : Expr × Expr → Prop
  | keyed {key value : Expr} {keySpan valueSpan : Span} {sign : Token} :
      key.span? = some keySpan → value.span? = some valueSpan →
      sign ∈ Token.scan source → sign.lexeme = .equals →
      keySpan.stop.offset ≤ sign.pos.offset → sign.stop.offset ≤ valueSpan.start.offset →
      EntryNested source (key, value)
  | keyless {value : Expr} {valueSpan : Span} {bits : BitSeq} : value.span? = some valueSpan →
      EntryNested source (.literal ⟨valueSpan.start, valueSpan.start⟩ bits, value)

/-- The node has a stretch of the text with its parts in it, one behind the other. -/
def Nested (source : Bytes) : Expr → Prop
  | absent => True
  | literal span _ | scope span => span.InText source
  | set span entries => span.InText source ∧
      (∀ entry ∈ entries, EntryNested source entry ∧ entry.1.Within span ∧ entry.2.Within span) ∧
      entries.Pairwise fun earlier later => earlier.2.Before later.1
  | function span pattern body => span.InText source ∧
      pattern.Within span ∧ body.Within span ∧ pattern.Before body
  | combine span left right => span.InText source ∧
      left.Within span ∧ right.Within span ∧ left.Before right

section Between

variable {e e' : Expr} {first middle last first' last' : Nat}

theorem Between.mono (h : e.Between first last) (hfirst : first' ≤ first) (hlast : last ≤ last') :
    e.Between first' last' := fun span hspan =>
  ⟨hfirst.trans (h span hspan).1, (h span hspan).2.trans hlast⟩

theorem Between.before (h : e.Between first middle) (h' : e'.Between middle last) : e.Before e' :=
  fun span span' hspan hspan' => (h span hspan).2.trans (h' span' hspan').1

end Between

/-! ## Trees that stand -/

section Standing

variable {source : Bytes} {tokens : List Token} {e : Expr} {entry : Expr × Expr}
  {entries rest : List (Expr × Expr)} {first last : Nat}

theorem Stands.between (h : e.Stands tokens first last) : e.Between first last := by
  intro span hspan
  have hpresent : e.isAbsent = false := by
    cases e with
    | absent => cases hspan
    | _ => rfl
  obtain ⟨span', hspan', hbegins, -⟩ := h.exists_span hpresent
  cases hspan.symm.trans hspan'
  exact ⟨hbegins.le.1, hbegins.le.2.2⟩

/-- The first entry comes before those behind it. -/
theorem EntriesStand.exists_between (h : EntriesStand tokens (entry :: rest) first last) :
    ∃ middle, first ≤ middle ∧ entry.1.Between first middle ∧ entry.2.Between first middle ∧
      EntriesStand tokens rest middle last := by
  cases h with
  | @keyed key value sign _ _ middle _ _ hkey _ _ _ hvalue hrest =>
      have hkeyLe := hkey.le
      have hsign := sign.offset_pos_le_stop
      have hvalueLe := hvalue.le
      exact ⟨middle, by omega, hkey.between.mono (Nat.le_refl _) (by omega),
        hvalue.between.mono (by omega) (Nat.le_refl _), hrest⟩
  | @keyless value _ _ _ middle _ hpresent hvalue hrest =>
      obtain ⟨span, hspan, hbegins, -⟩ := hvalue.exists_span hpresent
      obtain ⟨hfirst, hle, hlast⟩ := hbegins.le
      refine ⟨middle, hvalue.le, ?_, hvalue.between, hrest⟩
      rintro _ ⟨⟩
      rw [pos_eq_start hspan]
      exact ⟨hfirst, hle.trans hlast⟩

theorem EntriesStand.between (h : EntriesStand tokens entries first last) :
    ∀ entry ∈ entries, entry.1.Between first last ∧ entry.2.Between first last := by
  induction entries generalizing first with
  | nil => exact fun entry hmem => nomatch hmem
  | cons entry rest ih =>
      obtain ⟨middle, hfirst, hkey, hvalue, hrest⟩ := h.exists_between
      have hlast := hrest.le
      refine List.forall_mem_cons.mpr ⟨⟨hkey.mono (Nat.le_refl _) hlast,
        hvalue.mono (Nat.le_refl _) hlast⟩, fun other hmem => ?_⟩
      obtain ⟨hother, hother'⟩ := ih hrest other hmem
      exact ⟨hother.mono hfirst (Nat.le_refl _), hother'.mono hfirst (Nat.le_refl _)⟩

theorem EntriesStand.pairwise_before (h : EntriesStand tokens entries first last) :
    entries.Pairwise fun earlier later => earlier.2.Before later.1 := by
  induction entries generalizing first with
  | nil => exact .nil
  | cons entry rest ih =>
      obtain ⟨middle, -, -, hvalue, hrest⟩ := h.exists_between
      exact .cons (fun later hmem => hvalue.before (hrest.between later hmem).1) (ih hrest)

theorem EntriesStand.entryNested (h : EntriesStand (Token.scan source) entries first last) :
    ∀ entry ∈ entries, EntryNested source entry := by
  induction entries generalizing first with
  | nil => exact fun entry hmem => nomatch hmem
  | cons entry rest ih =>
      rw [List.forall_mem_cons]
      cases h with
      | keyed hkey hkeyStands hmem hlexeme hvalue hvalueStands hrest =>
          obtain ⟨keySpan, hkeySpan, hkeyBegins, -⟩ := hkeyStands.exists_span hkey
          obtain ⟨valueSpan, hvalueSpan, hvalueBegins, -⟩ := hvalueStands.exists_span hvalue
          exact ⟨.keyed hkeySpan hvalueSpan hmem hlexeme hkeyBegins.le.2.2 hvalueBegins.le.1,
            ih hrest⟩
      | keyless hvalue hvalueStands hrest =>
          obtain ⟨valueSpan, hvalueSpan, -⟩ := hvalueStands.exists_span hvalue
          rw [pos_eq_start hvalueSpan]
          exact ⟨.keyless hvalueSpan, ih hrest⟩

/-- The stretches of a tree that stands among the tokens of a text nest at its root. -/
theorem Stands.nested (h : e.Stands (Token.scan source) first last) (hlast : last ≤ source.length) :
    Nested source e := by
  cases h with
  | absent => trivial
  | literal _ _ _ hstop => exact ⟨Token.offset_pos_le_stop _, hstop.trans hlast⟩
  | scope _ _ _ hstop => exact ⟨Token.offset_pos_le_stop _, hstop.trans hlast⟩
  | @set opening closing _ _ _ _ _ _ _ _ hstop hentries =>
      have hopening := opening.offset_pos_le_stop
      have hclosing := closing.offset_pos_le_stop
      refine ⟨⟨hopening.trans (hentries.le.trans hclosing), hstop.trans hlast⟩,
        fun entry hmem => ?_, hentries.pairwise_before⟩
      obtain ⟨hkey, hvalue⟩ := hentries.between entry hmem
      exact ⟨hentries.entryNested entry hmem, hkey.mono hopening hclosing,
        hvalue.mono hopening hclosing⟩
  | function hspan hpattern hbody =>
      obtain ⟨-, hle, hstop⟩ := hspan.le
      exact ⟨⟨hle, hstop.trans hlast⟩, hpattern.between.mono (Nat.le_refl _) hbody.le,
        hbody.between.mono hpattern.le (Nat.le_refl _), hpattern.between.before hbody.between⟩
  | combine hspan hleft hright =>
      obtain ⟨-, hle, hstop⟩ := hspan.le
      exact ⟨⟨hle, hstop.trans hlast⟩, hleft.between.mono (Nat.le_refl _) hright.le,
        hright.between.mono hleft.le (Nat.le_refl _), hleft.between.before hright.between⟩

end Standing

/-- In a tree that was read, the stretches of all nodes are nested. -/
theorem nested_of_parse {source : Bytes} {e : Expr} (h : parse source = .ok e) :
    e.All (Nested source) := by
  refine all_of_parse h ⟨fun _ => Stands.nested, fun _ hpresent hvalue hlast => ?_⟩
  obtain ⟨span, hspan, hbegins, -⟩ := hvalue.exists_span hpresent
  obtain ⟨-, hle, hstop⟩ := hbegins.le
  rw [pos_eq_start hspan]
  exact ⟨Nat.le_refl _, hle.trans (hstop.trans hlast)⟩

/-- A set with a key, with a value that has none, and with operands that are absent. -/
def packedSource : Bytes := utf8 "\x7bf=():y;x()\x7d()"

/-- The tree of the set and of the absent operand behind it. -/
def packed : Expr :=
  let on (start stop : Nat) : Span := ⟨⟨start, 1, start + 1⟩, ⟨stop, 1, stop + 1⟩⟩
  .combine (on 0 12)
    (.set (on 0 12)
      [(.literal (on 1 2) ⟨8, [0x66]⟩, .function (on 5 7) .absent (.literal (on 6 7) ⟨8, [0x79]⟩)),
        (.literal (on 8 8) ⟨1, [0]⟩, .combine (on 8 9) (.literal (on 8 9) ⟨8, [0x78]⟩) .absent)])
    .absent

theorem nested_packed : parse packedSource = .ok packed ∧ packed.All (Nested packedSource) := by
  have hparse : parse packedSource = .ok packed := by rfl
  exact ⟨hparse, nested_of_parse hparse⟩

end Expr

end BitLang
