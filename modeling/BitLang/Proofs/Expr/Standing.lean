/-
# Where trees stand

A tree that was read stands among the tokens of its text: its literals and scopes are tokens of
their own, its sets go from an opening brace to a closing one, and every other node begins with the
first token of its parts.  `Expr.Stands` says this of every node, and between which offsets the
node stands: one part behind the other, a value behind the equals sign that follows its key, and a
key that was made up where its value begins.

The invariant of the reader is that the chain stands before the tokens that are still ahead, and
the group that is read of them before the token that ends it (`ReadsGroup.stands`).  So a tree that
was read from a text stands among its tokens, between its two ends (`Expr.stands_of_parse`).
-/

import BitLang.Proofs.Expr.Reading
import BitLang.Proofs.Token.Tiling

namespace BitLang

/-! ## Tokens in order -/

namespace Token

open Cursor Scanner

/-- Every token ends before those behind it start. -/
def InOrder (tokens : List Token) : Prop :=
  tokens.Pairwise fun first second => first.stop.offset ≤ second.pos.offset

theorem offset_pos_le_stop (token : Token) : token.pos.offset ≤ token.stop.offset :=
  Nat.le_add_right _ _

/-- The tokens of a text without faults are in order. -/
theorem inOrder_scan {source : Bytes} (h : firstFault? (scan source) = none) :
    InOrder (scan source) := by
  obtain ⟨count, hne, hend, hscan⟩ := exists_scan_eq_map source
  have hfault : ∀ k < count, (nth source k).lexeme ≠ .fault := by
    intro k hk
    have hmem : nth source k ∈ scan source := by
      rw [hscan]
      exact List.mem_append_left _ (List.mem_map_of_mem (List.mem_range.mpr hk))
    simpa using List.find?_eq_none.mp h _ hmem
  have htile (k : Nat) (hk : k < count) :
      Tile source (taken source k) (nth source k) (taken source (k + 1)) :=
    (within_after source k).tile (hne k hk)
  have hstop (k : Nat) (hk : k < count) : (nth source k).stop.offset = taken source (k + 1) :=
    (htile k hk).offset_stop (hfault k hk)
  rw [InOrder, hscan, List.pairwise_append, List.pairwise_map]
  refine ⟨List.pairwise_lt_range.imp_of_mem fun {j k} hj hk hjk => ?_, List.pairwise_singleton _ _,
    fun first hfirst last hlast => ?_⟩
  · rw [List.mem_range] at hj hk
    rw [hstop j hj]
    exact (taken_mono source hjk).trans (htile k hk).first_le
  · -- the end of the input stands at the end of the text
    obtain ⟨k, hk, rfl⟩ := List.mem_map.mp hfirst
    rw [List.mem_range] at hk
    rw [List.mem_singleton.mp hlast, offset_nth_of_eq source hend, hstop k hk]
    exact (htile k hk).last_le

end Token

/-! ## Standing among tokens -/

/-- The stretch begins with one of the tokens, ends no earlier than this one does, and lies between
two offsets. -/
def Span.BeginsWith (span : Span) (tokens : List Token) (first last : Nat) : Prop :=
  ∃ token ∈ tokens, token.lexeme ≠ .endOfInput ∧ span.start = token.pos ∧
    first ≤ token.pos.offset ∧ token.stop.offset ≤ span.stop.offset ∧ span.stop.offset ≤ last

theorem Span.BeginsWith.le {span : Span} {tokens : List Token} {first last : Nat}
    (h : span.BeginsWith tokens first last) : first ≤ span.start.offset ∧
      span.start.offset ≤ span.stop.offset ∧ span.stop.offset ≤ last := by
  obtain ⟨token, -, -, hstart, hfirst, hstop, hlast⟩ := h
  have := token.offset_pos_le_stop
  rw [hstart]
  omega

theorem Span.BeginsWith.mono {span : Span} {tokens : List Token} {first last first' last' : Nat}
    (h : span.BeginsWith tokens first last) (hfirst : first' ≤ first) (hlast : last ≤ last') :
    span.BeginsWith tokens first' last' := by
  obtain ⟨token, hmem, hlexeme, hstart, hle, hstop, hge⟩ := h
  exact ⟨token, hmem, hlexeme, hstart, hfirst.trans hle, hstop, hge.trans hlast⟩

/-- A stretch lies between its own ends. -/
theorem Span.BeginsWith.self {span : Span} {tokens : List Token} {first last : Nat}
    (h : span.BeginsWith tokens first last) :
    span.BeginsWith tokens span.start.offset span.stop.offset := by
  obtain ⟨token, hmem, hlexeme, hstart, -, hstop, -⟩ := h
  exact ⟨token, hmem, hlexeme, hstart, by rw [hstart], hstop, Nat.le_refl _⟩

theorem Token.beginsWith_span {token : Token} {tokens : List Token} {first last : Nat}
    (hmem : token ∈ tokens) (hlexeme : token.lexeme ≠ .endOfInput)
    (hfirst : first ≤ token.pos.offset) (hlast : token.stop.offset ≤ last) :
    token.span.BeginsWith tokens first last :=
  ⟨token, hmem, hlexeme, rfl, hfirst, Nat.le_refl _, hlast⟩

namespace Expr

theorem pos_eq_start {e : Expr} {span : Span} (h : e.span? = some span) : e.pos = span.start := by
  rw [pos, spanOr, h]
  rfl

mutual

/-- The tree stands among the tokens, between two offsets. -/
inductive Stands (tokens : List Token) : Expr → (first last : Nat) → Prop
  | absent {first last : Nat} : first ≤ last → Stands tokens .absent first last
  | literal {token : Token} {bits : BitSeq} {first last : Nat} : token ∈ tokens →
      token.lexeme = .literal bits → first ≤ token.pos.offset → token.stop.offset ≤ last →
      Stands tokens (.literal token.span bits) first last
  | scope {token : Token} {first last : Nat} : token ∈ tokens → token.lexeme = .scope →
      first ≤ token.pos.offset → token.stop.offset ≤ last →
      Stands tokens (.scope token.span) first last
  | set {opening closing : Token} {entries : List (Expr × Expr)} {first last : Nat} :
      opening ∈ tokens → opening.lexeme = .openBrace → closing ∈ tokens →
      closing.lexeme = .closeBrace → first ≤ opening.pos.offset → closing.stop.offset ≤ last →
      EntriesStand tokens entries opening.stop.offset closing.pos.offset →
      Stands tokens (.set ⟨opening.pos, closing.stop⟩ entries) first last
  | function {span : Span} {pattern body : Expr} {first middle last : Nat} :
      span.BeginsWith tokens first last → Stands tokens pattern span.start.offset middle →
      Stands tokens body middle span.stop.offset →
      Stands tokens (.function span pattern body) first last
  | combine {span : Span} {left right : Expr} {first middle last : Nat} :
      span.BeginsWith tokens first last → Stands tokens left span.start.offset middle →
      Stands tokens right middle span.stop.offset →
      Stands tokens (.combine span left right) first last

/-- The entries of a set stand among the tokens, between two offsets.  A key has an equals sign
behind it, unless it was made up. -/
inductive EntriesStand (tokens : List Token) : List (Expr × Expr) → (first last : Nat) → Prop
  | nil {first last : Nat} : first ≤ last → EntriesStand tokens [] first last
  | keyed {key value : Expr} {sign : Token} {rest : List (Expr × Expr)} {first middle last : Nat} :
      key.isAbsent = false → Stands tokens key first sign.pos.offset → sign ∈ tokens →
      sign.lexeme = .equals → value.isAbsent = false → Stands tokens value sign.stop.offset middle →
      EntriesStand tokens rest middle last → EntriesStand tokens ((key, value) :: rest) first last
  | keyless {value : Expr} {bits : BitSeq} {rest : List (Expr × Expr)} {first middle last : Nat} :
      value.isAbsent = false → Stands tokens value first middle →
      EntriesStand tokens rest middle last →
      EntriesStand tokens ((.literal ⟨value.pos, value.pos⟩ bits, value) :: rest) first last

end

section Bounds

variable {tokens : List Token} {e chain next : Expr} {pos : Position}
  {first middle last first' last' : Nat}

mutual

theorem Stands.le {e : Expr} {first last : Nat} : Stands tokens e first last → first ≤ last
  | .absent hle => hle
  | .literal _ _ hstart hstop => (hstart.trans (Token.offset_pos_le_stop _)).trans hstop
  | .scope _ _ hstart hstop => (hstart.trans (Token.offset_pos_le_stop _)).trans hstop
  | .set _ _ _ _ hstart hstop hentries =>
    (hstart.trans (Token.offset_pos_le_stop _)).trans
      (hentries.le.trans ((Token.offset_pos_le_stop _).trans hstop))
  | .function hspan _ _ => hspan.le.1.trans (hspan.le.2.1.trans hspan.le.2.2)
  | .combine hspan _ _ => hspan.le.1.trans (hspan.le.2.1.trans hspan.le.2.2)

theorem EntriesStand.le {entries : List (Expr × Expr)} {first last : Nat} :
    EntriesStand tokens entries first last → first ≤ last
  | .nil hle => hle
  | .keyed _ hkey _ _ _ hvalue hrest =>
    (hkey.le.trans (Token.offset_pos_le_stop _)).trans (hvalue.le.trans hrest.le)
  | .keyless _ hvalue hrest => hvalue.le.trans hrest.le

end

/-- A tree that stands between two offsets stands between any others around them. -/
theorem Stands.mono (h : e.Stands tokens first last) (hfirst : first' ≤ first)
    (hlast : last ≤ last') : e.Stands tokens first' last' := by
  cases h with
  | absent hle => exact .absent (by omega)
  | literal hmem hlexeme hstart hstop => exact .literal hmem hlexeme (by omega) (by omega)
  | scope hmem hlexeme hstart hstop => exact .scope hmem hlexeme (by omega) (by omega)
  | set hopening hbrace hclosing hend hstart hstop hentries =>
      exact .set hopening hbrace hclosing hend (by omega) (by omega) hentries
  | function hspan hpattern hbody => exact .function (hspan.mono hfirst hlast) hpattern hbody
  | combine hspan hleft hright => exact .combine (hspan.mono hfirst hlast) hleft hright

section Entries

variable {entries more : List (Expr × Expr)}

theorem EntriesStand.mono_first (h : EntriesStand tokens entries first last)
    (hfirst : first' ≤ first) : EntriesStand tokens entries first' last := by
  cases h with
  | nil hle => exact .nil (hfirst.trans hle)
  | keyed hkey hkeyStands hmem hlexeme hvalue hvalueStands hrest =>
      exact .keyed hkey (hkeyStands.mono hfirst (Nat.le_refl _)) hmem hlexeme hvalue hvalueStands
        hrest
  | keyless hvalue hvalueStands hrest =>
      exact .keyless hvalue (hvalueStands.mono hfirst (Nat.le_refl _)) hrest

theorem EntriesStand.append (h : EntriesStand tokens entries first middle)
    (hmore : EntriesStand tokens more middle last) :
    EntriesStand tokens (entries ++ more) first last := by
  induction entries generalizing first with
  | nil =>
      cases h with
      | nil hle => exact hmore.mono_first hle
  | cons entry rest ih =>
      cases h with
      | keyed hkey hkeyStands hmem hlexeme hvalue hvalueStands hrest =>
          exact .keyed hkey hkeyStands hmem hlexeme hvalue hvalueStands (ih hrest)
      | keyless hvalue hvalueStands hrest => exact .keyless hvalue hvalueStands (ih hrest)

theorem EntriesStand.mono_last (h : EntriesStand tokens entries first last)
    (hlast : last ≤ last') : EntriesStand tokens entries first last' := by
  simpa using h.append (.nil hlast)

end Entries

/-- A tree that stands somewhere begins with a token, and stands between the ends of its own
stretch. -/
theorem Stands.exists_span (h : e.Stands tokens first last) (hpresent : e.isAbsent = false) :
    ∃ span, e.span? = some span ∧ span.BeginsWith tokens first last ∧
      e.Stands tokens span.start.offset span.stop.offset := by
  cases h with
  | absent => cases hpresent
  | literal hmem hlexeme hstart hstop =>
      exact ⟨_, rfl, Token.beginsWith_span hmem (by simp [hlexeme]) hstart hstop,
        .literal hmem hlexeme (Nat.le_refl _) (Nat.le_refl _)⟩
  | scope hmem hlexeme hstart hstop =>
      exact ⟨_, rfl, Token.beginsWith_span hmem (by simp [hlexeme]) hstart hstop,
        .scope hmem hlexeme (Nat.le_refl _) (Nat.le_refl _)⟩
  | @set opening closing _ _ _ hopening hbrace hclosing hend hstart hstop hentries =>
      have hle : opening.stop.offset ≤ closing.stop.offset :=
        hentries.le.trans closing.offset_pos_le_stop
      exact ⟨_, rfl, ⟨opening, hopening, by simp [hbrace], rfl, hstart, hle, hstop⟩,
        .set hopening hbrace hclosing hend (Nat.le_refl _) (Nat.le_refl _) hentries⟩
  | function hspan hpattern hbody =>
      exact ⟨_, rfl, hspan, .function hspan.self hpattern hbody⟩
  | combine hspan hleft hright => exact ⟨_, rfl, hspan, .combine hspan.self hleft hright⟩

/-- What starts where a tree stands and does not stop before it begins with a token as well. -/
theorem Stands.beginsWith (h : e.Stands tokens first middle) (hpresent : e.isAbsent = false)
    (pos : Position) {stop : Position} (hmiddle : middle ≤ stop.offset)
    (hlast : stop.offset ≤ last) :
    (Span.mk (e.spanOr pos).start stop).BeginsWith tokens first last := by
  obtain ⟨span, hspan, ⟨token, hmem, hlexeme, hstart, hfirst, hstop, hend⟩, -⟩ :=
    h.exists_span hpresent
  rw [Expr.spanOr, hspan]
  exact ⟨token, hmem, hlexeme, hstart, hfirst, hstop.trans (hend.trans hmiddle), hlast⟩

/-- A tree stands between the ends of its stretch, and an absent operand where it would stand. -/
theorem Stands.spanOr (h : e.Stands tokens first last) (hfirst : first ≤ pos.offset)
    (hlast : pos.offset ≤ last) :
    first ≤ (e.spanOr pos).start.offset ∧ (e.spanOr pos).stop.offset ≤ last ∧
      e.Stands tokens (e.spanOr pos).start.offset (e.spanOr pos).stop.offset := by
  cases hpresent : e.isAbsent with
  | true =>
      rw [isAbsent_iff.mp hpresent]
      exact ⟨hfirst, hlast, .absent (Nat.le_refl _)⟩
  | false =>
      obtain ⟨span, hspan, hbegins, hstands⟩ := h.exists_span hpresent
      obtain ⟨hstart, -, hstop⟩ := hbegins.le
      rw [Expr.spanOr, hspan]
      exact ⟨hstart, hstop, hstands⟩

/-! ## Nodes of trees that stand -/

/-- The tree holds the node, or is the node itself. -/
inductive HasPart (root : Expr) : Expr → Prop
  | self : HasPart root root
  | key {span : Span} {entries : List (Expr × Expr)} {entry : Expr × Expr} :
      HasPart root (.set span entries) → entry ∈ entries → HasPart root entry.1
  | value {span : Span} {entries : List (Expr × Expr)} {entry : Expr × Expr} :
      HasPart root (.set span entries) → entry ∈ entries → HasPart root entry.2
  | pattern {span : Span} {pattern body : Expr} : HasPart root (.function span pattern body) →
      HasPart root pattern
  | body {span : Span} {pattern body : Expr} : HasPart root (.function span pattern body) →
      HasPart root body
  | left {span : Span} {left right : Expr} : HasPart root (.combine span left right) →
      HasPart root left
  | right {span : Span} {left right : Expr} : HasPart root (.combine span left right) →
      HasPart root right

/-- The property holds of all parts of a tree that stand among the tokens no further than an offset,
and of the keys that are made up for values among them. -/
structure HoldsOfParts (root : Expr) (tokens : List Token) (bound : Nat) (P : Expr → Prop) :
    Prop where
  stands {node : Expr} {first last : Nat} : root.HasPart node → node.Stands tokens first last →
    last ≤ bound → P node
  key {value : Expr} {bits : BitSeq} {first last : Nat} : root.HasPart value →
    value.isAbsent = false → value.Stands tokens first last → last ≤ bound →
    P (.literal ⟨value.pos, value.pos⟩ bits)

section Parts

variable {root : Expr} {P : Expr → Prop} {bound : Nat} (hP : HoldsOfParts root tokens bound P)

include hP

mutual

/-- Every node of a tree that stands among the tokens stands there itself, or is a key that was
made up. -/
theorem Stands.all {e : Expr} {first last : Nat} :
    e.Stands tokens first last → root.HasPart e → last ≤ bound → e.All P
  | .absent hle, hpart, hlast => hP.stands hpart (.absent hle) hlast
  | .literal hmem hlexeme hstart hstop, hpart, hlast =>
    hP.stands hpart (.literal hmem hlexeme hstart hstop) hlast
  | .scope hmem hlexeme hstart hstop, hpart, hlast =>
    hP.stands hpart (.scope hmem hlexeme hstart hstop) hlast
  | @Stands.set _ _ closing _ _ _ hopening hbrace hclosing hend hstart hstop hentries, hpart,
      hlast =>
    ⟨hP.stands hpart (.set hopening hbrace hclosing hend hstart hstop hentries) hlast,
      hentries.all (fun _ hmem => ⟨hpart.key hmem, hpart.value hmem⟩)
        (closing.offset_pos_le_stop.trans (hstop.trans hlast))⟩
  | .function hspan hpattern hbody, hpart, hlast => by
    have hstop := hspan.le.2.2.trans hlast
    exact ⟨hP.stands hpart (.function hspan hpattern hbody) hlast,
      hpattern.all hpart.pattern (hbody.le.trans hstop), hbody.all hpart.body hstop⟩
  | .combine hspan hleft hright, hpart, hlast => by
    have hstop := hspan.le.2.2.trans hlast
    exact ⟨hP.stands hpart (.combine hspan hleft hright) hlast,
      hleft.all hpart.left (hright.le.trans hstop), hright.all hpart.right hstop⟩

theorem EntriesStand.all {entries : List (Expr × Expr)} {first last : Nat} :
    EntriesStand tokens entries first last →
    (∀ entry ∈ entries, root.HasPart entry.1 ∧ root.HasPart entry.2) → last ≤ bound →
    AllEntries P entries
  | .nil _, _, _ => trivial
  | @EntriesStand.keyed _ _ _ sign _ _ _ _ _ hkeyStands _ _ _ hvalue hrest, hparts, hlast => by
    have hsign := sign.offset_pos_le_stop
    have hvalueLe := hvalue.le
    have hrestLe := hrest.le
    obtain ⟨hpart, hparts⟩ := List.forall_mem_cons.mp hparts
    exact ⟨hkeyStands.all hpart.1 (by omega), hvalue.all hpart.2 (by omega),
      hrest.all hparts hlast⟩
  | .keyless hpresent hvalue hrest, hparts, hlast => by
    have hmiddle := hrest.le.trans hlast
    obtain ⟨hpart, hparts⟩ := List.forall_mem_cons.mp hparts
    exact ⟨hP.key hpart.2 hpresent hvalue hmiddle, hvalue.all hpart.2 hmiddle,
      hrest.all hparts hlast⟩

end

end Parts

/-! ## Chains and functions -/

theorem follow_of_present (h : chain.isAbsent = false) (next : Expr) (pos : Position) :
    chain.follow next pos = .combine ⟨chain.pos, (next.spanOr pos).stop⟩ chain next := by
  cases chain with
  | absent => cases h
  | _ => rfl

/-- An operand comes behind the chain, and if it is absent, at least the place where it would
stand does. -/
theorem Stands.follow (hchain : chain.Stands tokens first middle)
    (hnext : next.Stands tokens middle last) (hfirst : middle ≤ pos.offset)
    (hlast : pos.offset ≤ last) : (chain.follow next pos).Stands tokens first last := by
  cases hpresent : chain.isAbsent with
  | true =>
      rw [isAbsent_iff.mp hpresent]
      exact hnext.mono hchain.le (Nat.le_refl _)
  | false =>
      obtain ⟨span, hspan, hbegins, hstands⟩ := hchain.exists_span hpresent
      obtain ⟨hnextStart, hnextStop, hnextStands⟩ := hnext.spanOr hfirst hlast
      have hmiddle : middle ≤ (next.spanOr pos).stop.offset := hnextStart.trans hnextStands.le
      rw [← pos_eq_start hspan] at hstands
      rw [follow_of_present hpresent]
      exact .combine (hchain.beginsWith hpresent .none hmiddle hnextStop)
        (hstands.mono (Nat.le_refl _) (hbegins.le.2.2.trans hnextStart)) hnextStands

theorem Stands.splitLast (h : chain.Stands tokens first last) :
    ∃ middle, chain.splitLast.1.Stands tokens first middle ∧
      chain.splitLast.2.Stands tokens middle last := by
  cases chain with
  | combine span left right =>
      cases h with
      | combine hspan hleft hright =>
          obtain ⟨hfirst, -, hlast⟩ := hspan.le
          exact ⟨_, hleft.mono hfirst (Nat.le_refl _), hright.mono (Nat.le_refl _) hlast⟩
  | _ => exact ⟨first, .absent (Nat.le_refl _), h⟩

end Bounds

end Expr

namespace Parser

open BitLang.Expr

variable {tokens : List Token} {first middle last : Nat}

/-- The function that a colon makes of what stands before it and behind it. -/
theorem stands_functionOf {chain : Expr} (hchain : chain.Stands tokens first middle)
    {colon : Token} (hmem : colon ∈ tokens) (hlexeme : colon.lexeme = .colon)
    (hmiddle : middle ≤ colon.pos.offset) {body : Group}
    (hbody : body.tree.Stands tokens colon.stop.offset body.stop.pos.offset) :
    (functionOf chain colon body).Stands tokens first body.stop.pos.offset := by
  obtain ⟨split, houter, hpattern⟩ := hchain.splitLast
  have hsplit : split ≤ colon.pos.offset := hpattern.le.trans hmiddle
  have hcolon := colon.offset_pos_le_stop
  obtain ⟨hbodyStart, hbodyStop, hbodyStands⟩ := hbody.spanOr hbody.le (Nat.le_refl _)
  have hend : colon.stop.offset ≤ (body.tree.spanOr body.stop.pos).stop.offset :=
    hbodyStart.trans hbodyStands.le
  obtain ⟨hstart, hstop, hpatternStands⟩ :=
    (hpattern.mono (Nat.le_refl _) hmiddle).spanOr hsplit (Nat.le_refl _)
  have hspan : (Span.mk (chain.splitLast.2.spanOr colon.pos).start
      (body.tree.spanOr body.stop.pos).stop).BeginsWith tokens split body.stop.pos.offset := by
    cases hpresent : chain.splitLast.2.isAbsent with
    | true =>
        -- without a pattern, the function begins with its colon
        rw [isAbsent_iff.mp hpresent]
        exact ⟨colon, hmem, by simp [hlexeme], rfl, hsplit, hend, hbodyStop⟩
    | false =>
        have hpatternStop := hmiddle.trans (hcolon.trans hend)
        exact hpattern.beginsWith hpresent _ hpatternStop hbodyStop
  have hfunction := Stands.function hspan (hpatternStands.mono (Nat.le_refl _) hstop)
    (hbodyStands.mono (hcolon.trans hbodyStart) (Nat.le_refl _))
  have hstartLe := hpatternStands.le.trans (hstop.trans (hcolon.trans hbody.le))
  exact houter.follow hfunction hstart hstartLe

/-! ## Statements -/

/-- The statements read so far stand between two offsets: their entries, and behind these the key
that waits for its value, if there is one, with its equals sign. -/
inductive Statements.Stand (tokens : List Token) (done : Statements) (first last : Nat) : Prop
  | idle : done.key.isAbsent = true → EntriesStand tokens done.entries.toList first last →
      done.Stand tokens first last
  | waiting {sign : Token} {middle : Nat} : done.key.isAbsent = false →
      EntriesStand tokens done.entries.toList first middle →
      done.key.Stands tokens middle sign.pos.offset → sign ∈ tokens → sign.lexeme = .equals →
      sign.stop.offset ≤ last → done.Stand tokens first last

theorem Statements.Stand.entries {done : Statements} (h : done.Stand tokens first last) :
    EntriesStand tokens done.entries.toList first last := by
  cases h with
  | idle _ hentries => exact hentries
  | @waiting sign _ _ hentries hkey _ _ hsign =>
      exact hentries.mono_last ((hkey.le.trans sign.offset_pos_le_stop).trans hsign)

/-- A statement that is over adds the key that waited and its value, or the value with a key made
up for it. -/
theorem Statements.Stand.close {done : Statements} {value : Expr}
    (h : done.Stand tokens first middle) (hvalue : value.Stands tokens middle last) :
    (done.close value).Stand tokens first last := by
  have hle := hvalue.le
  have hnil : EntriesStand tokens [] last last := .nil (Nat.le_refl _)
  rw [Statements.close]
  cases hpresent : value.isAbsent with
  | true =>
      exact .idle rfl (h.entries.mono_last hle)
  | false =>
      cases h with
      | idle hkey hentries =>
          rw [if_neg Bool.false_ne_true, if_pos hkey]
          refine .idle rfl ?_
          rw [Array.toList_push]
          exact hentries.append (.keyless hpresent hvalue hnil)
      | waiting hkey hentries hkeyStands hmem hlexeme hsign =>
          rw [if_neg Bool.false_ne_true, if_neg (by simp [hkey])]
          refine .idle rfl ?_
          rw [Array.toList_push]
          exact hentries.append (.keyed hkey hkeyStands hmem hlexeme hpresent
            (hvalue.mono hsign (Nat.le_refl _)) hnil)

/-! ## Readings -/

/-- Tokens that are still ahead of an offset, some of all. -/
structure Ahead (tokens : List Token) (offset : Nat) (ahead : List Token) : Prop where
  inOrder : Token.InOrder ahead
  mem : ∀ token ∈ ahead, token ∈ tokens
  le : ∀ token ∈ ahead, offset ≤ token.pos.offset

namespace Ahead

variable {offset : Nat} {ahead rest : List Token} {token : Token}

theorem head (h : Ahead tokens offset (token :: rest)) :
    token ∈ tokens ∧ offset ≤ token.pos.offset :=
  ⟨h.mem token List.mem_cons_self, h.le token List.mem_cons_self⟩

theorem behind (h : Ahead tokens offset ahead) (hrest : token :: rest <:+ ahead) :
    Ahead tokens token.stop.offset rest := by
  have hsuffix := (List.suffix_cons token rest).trans hrest
  have horder := h.inOrder.sublist hrest.sublist
  exact ⟨(List.pairwise_cons.mp horder).2, fun other hmem => h.mem other (hsuffix.subset hmem),
    (List.pairwise_cons.mp horder).1⟩

theorem tail (h : Ahead tokens offset (token :: rest)) : Ahead tokens token.stop.offset rest :=
  h.behind (List.suffix_refl _)

theorem weaken (h : Ahead tokens offset ahead) {less : Nat} (hle : less ≤ offset) :
    Ahead tokens less ahead :=
  ⟨h.inOrder, h.mem, fun token hmem => hle.trans (h.le token hmem)⟩

end Ahead

/-- What is left behind something that was left behind the token. -/
theorem suffix_cons_of {token stop : Token} {rest left more : List Token}
    (hleft : stop :: left <:+ rest) (hmore : more <:+ left) : more <:+ token :: rest :=
  (hmore.trans ((List.suffix_cons stop left).trans hleft)).trans (List.suffix_cons token rest)

mutual

/-- What is read of a group stands before the token that ends it. -/
theorem ReadsGroup.stands {depth : Nat} {chain : Expr} {ahead : List Token} {group : Group}
    {first middle : Nat} : ReadsGroup depth chain ahead group →
    chain.Stands tokens first middle → Ahead tokens middle ahead →
    group.tree.Stands tokens first group.stop.pos.offset ∧ group.stop :: group.rest <:+ ahead
  | .stop _, hchain, hahead =>
    ⟨hchain.mono (Nat.le_refl _) hahead.head.2, List.suffix_refl _⟩
  | @ReadsGroup.literal _ _ token _ _ _ hlexeme hread, hchain, hahead => by
    obtain ⟨hmem, hstart⟩ := hahead.head
    have hliteral := Stands.literal hmem hlexeme hstart (Nat.le_refl _)
    obtain ⟨htree, hrest⟩ :=
      hread.stands (hchain.follow hliteral hstart token.offset_pos_le_stop) hahead.tail
    exact ⟨htree, hrest.trans (List.suffix_cons _ _)⟩
  | @ReadsGroup.scope _ _ token _ _ hlexeme hread, hchain, hahead => by
    obtain ⟨hmem, hstart⟩ := hahead.head
    have hscope := Stands.scope hmem hlexeme hstart (Nat.le_refl _)
    obtain ⟨htree, hrest⟩ :=
      hread.stands (hchain.follow hscope hstart token.offset_pos_le_stop) hahead.tail
    exact ⟨htree, hrest.trans (List.suffix_cons _ _)⟩
  | @ReadsGroup.paren _ _ token _ inner _ _ _ hinner _ hread, hchain, hahead => by
    obtain ⟨-, hstart⟩ := hahead.head
    have hopening := token.offset_pos_le_stop
    obtain ⟨hinside, hsuffix⟩ := hinner.stands (.absent (Nat.le_refl _)) hahead.tail
    -- the parentheses are part of no node; if there is nothing inside, the opening one counts
    have hchain := hchain.follow (hinside.mono (hstart.trans hopening) (Nat.le_refl _)) hstart
      (hopening.trans hinside.le)
    obtain ⟨htree, hrest⟩ := hread.stands hchain
      ((hahead.tail.behind hsuffix).weaken inner.stop.offset_pos_le_stop)
    exact ⟨htree, suffix_cons_of hsuffix hrest⟩
  | @ReadsGroup.set _ _ token _ _ _ hlexeme _ hinner hread, hchain, hahead => by
    obtain ⟨hmem, hstart⟩ := hahead.head
    have hnone : Statements.Stand tokens ⟨.absent, 0, #[]⟩ token.stop.offset token.stop.offset :=
      .idle rfl (.nil (Nat.le_refl _))
    obtain ⟨hinside, hsuffix⟩ := hinner.stands hmem hlexeme hnone hahead.tail
    have hchain := hchain.follow (hinside.mono hstart (Nat.le_refl _)) hstart hinside.le
    obtain ⟨htree, hrest⟩ := hread.stands hchain (hahead.tail.behind hsuffix)
    exact ⟨htree, suffix_cons_of hsuffix hrest⟩
  | .function hlexeme _ hbody, hchain, hahead => by
    obtain ⟨hmem, hstart⟩ := hahead.head
    obtain ⟨hinside, hsuffix⟩ := hbody.stands (.absent (Nat.le_refl _)) hahead.tail
    exact ⟨stands_functionOf hchain hmem hlexeme hstart hinside,
      hsuffix.trans (List.suffix_cons _ _)⟩

/-- What is read of a set stands between its braces. -/
theorem ReadsSet.stands {depth : Nat} {opening : Token} {done : Statements}
    {ahead : List Token} {group : Group} {middle : Nat} :
    ReadsSet depth opening done ahead group → opening ∈ tokens → opening.lexeme = .openBrace →
    done.Stand tokens opening.stop.offset middle → Ahead tokens middle ahead →
    group.tree.Stands tokens opening.pos.offset group.stop.stop.offset ∧
      group.stop :: group.rest <:+ ahead
  | @ReadsSet.key _ _ _ _ value _ hvalue hstop hpresent hread, hmem, hlexeme, hdone, hahead => by
    obtain ⟨hinside, hsuffix⟩ := hvalue.stands (.absent (Nat.le_refl _)) hahead
    have hsign := hahead.mem _ (hsuffix.subset List.mem_cons_self)
    have hwaiting : Statements.Stand tokens { done with key := value.tree } opening.stop.offset
        value.stop.stop.offset :=
      .waiting hpresent hdone.entries hinside hsign hstop (Nat.le_refl _)
    obtain ⟨htree, hrest⟩ := hread.stands hmem hlexeme hwaiting (hahead.behind hsuffix)
    exact ⟨htree, hrest.trans ((List.suffix_cons _ _).trans hsuffix)⟩
  | @ReadsSet.next _ _ _ _ value _ hvalue _ hread, hmem, hlexeme, hdone, hahead => by
    obtain ⟨hinside, hsuffix⟩ := hvalue.stands (.absent (Nat.le_refl _)) hahead
    obtain ⟨htree, hrest⟩ := hread.stands hmem hlexeme (hdone.close hinside)
      ((hahead.behind hsuffix).weaken value.stop.offset_pos_le_stop)
    exact ⟨htree, hrest.trans ((List.suffix_cons _ _).trans hsuffix)⟩
  | .last hvalue hstop, hmem, hlexeme, hdone, hahead => by
    obtain ⟨hinside, hsuffix⟩ := hvalue.stands (.absent (Nat.le_refl _)) hahead
    have hclosing := hahead.mem _ (hsuffix.subset List.mem_cons_self)
    have hentries := (hdone.close hinside).entries
    exact ⟨.set hmem hlexeme hclosing hstop (Nat.le_refl _) (Nat.le_refl _) hentries, hsuffix⟩

end

end Parser

namespace Expr

theorem ofTokens_of_parse {source : Bytes} {e : Expr} (h : parse source = .ok e) :
    Token.firstFault? (Token.scan source) = none ∧ ofTokens (Token.scan source) = .ok e := by
  rw [parse, Token.tokenize] at h
  cases hfault : Token.firstFault? (Token.scan source) with
  | some token =>
      rw [hfault] at h
      cases h
  | none =>
      rw [hfault] at h
      exact ⟨rfl, h⟩

/-- A tree that was read from a text stands among its tokens, between its two ends. -/
theorem stands_of_parse {source : Bytes} {e : Expr} (h : parse source = .ok e) :
    e.Stands (Token.scan source) 0 source.length := by
  obtain ⟨hfault, hread⟩ := ofTokens_of_parse h
  obtain ⟨front, last, hscan, -, hlast⟩ := Token.exists_scan_eq source
  have hmem : last ∈ Token.scan source := by simp [hscan]
  obtain ⟨stop, rest, -, hread⟩ := exists_readsGroup_of_ofTokens ⟨last, hmem, hlast⟩ hread
  have hahead : Parser.Ahead (Token.scan source) 0 (Token.scan source) :=
    ⟨Token.inOrder_scan hfault, fun _ hmem => hmem, fun _ _ => Nat.zero_le _⟩
  obtain ⟨hstands, hsuffix⟩ := hread.stands (.absent (Nat.le_refl _)) hahead
  have hstop := Token.offset_le_length (hsuffix.subset List.mem_cons_self)
  exact hstands.mono (Nat.le_refl _) hstop

/-- What holds of all parts of a tree that stand in the text it was read from, and of the keys made
up for them, holds of every node of the tree. -/
theorem all_of_parse {source : Bytes} {e : Expr} {P : Expr → Prop} (h : parse source = .ok e)
    (hP : HoldsOfParts e (Token.scan source) source.length P) : e.All P :=
  (stands_of_parse h).all hP .self (Nat.le_refl _)

end Expr

end BitLang
