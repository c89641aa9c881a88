/-
# Serializations identify trees

No serialization of a node is the beginning of another, so the nodes of a tree can be
told apart one after another.  This holds for trees whose literals are canonical, since
the length of a literal then says how many bytes follow, and whose literals and sets are
small enough for their lengths to fit the four bytes that are written for them.
-/

import BitLang.Expr.Fingerprint
import BitLang.Proofs.Expr.Literals
import BitLang.Proofs.Text.Bytes
import BitLang.Proofs.Value.Spans

namespace BitLang.Expr

/-- The length of a literal, or the number of entries of a set, fits four bytes. -/
def CountFits : Expr → Prop
  | literal _ bits => bits.len < 2 ^ 32
  | set _ entries => entries.length < 2 ^ 32
  | _ => True

/-- All literals have fewer than 2^32 bits, and all sets fewer than 2^32 entries. -/
def Fits (e : Expr) : Prop := e.All CountFits

/-! ## Reading a serialization in one way only -/

theorem count32_inj {first second : Nat} {rest rest' : Bytes} (hfirst : first < 2 ^ 32)
    (hsecond : second < 2 ^ 32) (h : count32 first ++ rest = count32 second ++ rest') :
    first = second ∧ rest = rest' := by
  have hlength : (count32 first).length = (count32 second).length := by
    simp only [count32, length_bigEndian]
  obtain ⟨hcount, hrest⟩ := List.append_inj h hlength
  refine ⟨?_, hrest⟩
  have hsame := bigEndian_inj (by omega) (by omega) hcount
  omega

/-- The bits of a literal end where its length says. -/
theorem literal_inj {first second : BitSeq} {rest rest' : Bytes} (hfirst : first.Canonical)
    (hsecond : second.Canonical) (hfits : first.len < 2 ^ 32) (hfits' : second.len < 2 ^ 32)
    (h : count32 first.len ++ (first.bytes ++ rest) =
      count32 second.len ++ (second.bytes ++ rest')) :
    first = second ∧ rest = rest' := by
  obtain ⟨hlen, hmore⟩ := count32_inj hfits hfits' h
  have hlength : first.bytes.length = second.bytes.length := by
    rw [hfirst.1, hsecond.1, hlen]
  obtain ⟨hbytes, hrest⟩ := List.append_inj hmore hlength
  cases first
  cases second
  exact ⟨congr (congrArg BitSeq.mk hlen) hbytes, hrest⟩

/-- The serialization of a tree, and what follows it, can be read off a byte string in
one way only. -/
def SerializesApart (e : Expr) : Prop :=
  e.Canonical → e.Fits → ∀ {e' : Expr} {rest rest' : Bytes}, e'.Canonical → e'.Fits →
    e.serializeOnto rest = e'.serializeOnto rest' →
    e.eraseSpans = e'.eraseSpans ∧ rest = rest'

/-- Entries that are as many can be told apart one after another. -/
theorem serializeEntries_inj {entries entries' : List (Expr × Expr)} {rest rest' : Bytes}
    (hentries : ∀ entry ∈ entries, entry.1.SerializesApart ∧ entry.2.SerializesApart)
    (hcanonical : AllEntries LiteralCanonical entries) (hfits : AllEntries CountFits entries)
    (hcanonical' : AllEntries LiteralCanonical entries') (hfits' : AllEntries CountFits entries')
    (hlength : entries.length = entries'.length)
    (h : serializeEntries entries rest = serializeEntries entries' rest') :
    eraseEntries entries = eraseEntries entries' ∧ rest = rest' := by
  induction entries generalizing entries' with
  | nil =>
      cases entries' with
      | nil => exact ⟨rfl, h⟩
      | cons entry' more' => cases hlength
  | cons entry more ih =>
      cases entries' with
      | nil => cases hlength
      | cons entry' more' =>
          rcases entry with ⟨key, value⟩
          rcases entry' with ⟨key', value'⟩
          obtain ⟨hentry, hmore⟩ := List.forall_mem_cons.mp hentries
          obtain ⟨hkey, hafterKey⟩ := hentry.1 hcanonical.1 hfits.1 hcanonical'.1 hfits'.1 h
          obtain ⟨hvalue, hafterValue⟩ :=
            hentry.2 hcanonical.2.1 hfits.2.1 hcanonical'.2.1 hfits'.2.1 hafterKey
          obtain ⟨herased, hrest⟩ := ih hmore hcanonical.2.2 hfits.2.2 hcanonical'.2.2 hfits'.2.2
            (Nat.succ.inj hlength) hafterValue
          exact ⟨by simp only [eraseEntries, hkey, hvalue, herased], hrest⟩

/-- No serialization is the beginning of another. -/
theorem serializesApart (e : Expr) : e.SerializesApart := by
  induction e using Expr.induction with
  | absent =>
      intro _ _ e' rest rest' _ _ h
      cases e' with
      | absent => exact ⟨rfl, (List.cons.inj h).2⟩
      | _ => exact absurd (List.cons.inj h).1 (by decide)
  | literal span bits =>
      intro hcanonical hfits e' rest rest' hcanonical' hfits' h
      cases e' with
      | literal span' bits' =>
          obtain ⟨hbits, hrest⟩ :=
            literal_inj hcanonical hcanonical' hfits hfits' (List.cons.inj h).2
          exact ⟨by simp only [eraseSpans, hbits], hrest⟩
      | _ => exact absurd (List.cons.inj h).1 (by decide)
  | scope span =>
      intro _ _ e' rest rest' _ _ h
      cases e' with
      | scope span' => exact ⟨rfl, (List.cons.inj h).2⟩
      | _ => exact absurd (List.cons.inj h).1 (by decide)
  | set span entries ih =>
      intro hcanonical hfits e' rest rest' hcanonical' hfits' h
      cases e' with
      | set span' entries' =>
          obtain ⟨hlength, hafter⟩ := count32_inj hfits.1 hfits'.1 (List.cons.inj h).2
          obtain ⟨herased, hrest⟩ := serializeEntries_inj ih hcanonical.2 hfits.2 hcanonical'.2
            hfits'.2 hlength hafter
          exact ⟨by simp only [eraseSpans, herased], hrest⟩
      | _ => exact absurd (List.cons.inj h).1 (by decide)
  | function span pattern body ihpattern ihbody =>
      intro hcanonical hfits e' rest rest' hcanonical' hfits' h
      cases e' with
      | function span' pattern' body' =>
          obtain ⟨hpattern, hafter⟩ := ihpattern hcanonical.2.1 hfits.2.1 hcanonical'.2.1
            hfits'.2.1 (List.cons.inj h).2
          obtain ⟨hbody, hrest⟩ := ihbody hcanonical.2.2 hfits.2.2 hcanonical'.2.2 hfits'.2.2 hafter
          exact ⟨by simp only [eraseSpans, hpattern, hbody], hrest⟩
      | _ => exact absurd (List.cons.inj h).1 (by decide)
  | combine span left right ihleft ihright =>
      intro hcanonical hfits e' rest rest' hcanonical' hfits' h
      cases e' with
      | combine span' left' right' =>
          obtain ⟨hleft, hafter⟩ := ihleft hcanonical.2.1 hfits.2.1 hcanonical'.2.1 hfits'.2.1
            (List.cons.inj h).2
          obtain ⟨hright, hrest⟩ :=
            ihright hcanonical.2.2 hfits.2.2 hcanonical'.2.2 hfits'.2.2 hafter
          exact ⟨by simp only [eraseSpans, hleft, hright], hrest⟩
      | _ => exact absurd (List.cons.inj h).1 (by decide)

/-- Trees with the same serialization agree up to spans. -/
theorem eraseSpans_eq_of_serialize_eq {e e' : Expr} (he : e.Canonical) (he' : e'.Canonical)
    (hfits : e.Fits) (hfits' : e'.Fits) (h : e.serialize = e'.serialize) :
    e.eraseSpans = e'.eraseSpans :=
  (e.serializesApart he hfits he' hfits' (List.cons.inj h).2).1

/-! ## What follows a serialization, and what it leaves out -/

/-- The bytes of the entries do not depend on what follows them. -/
theorem serializeEntries_append {entries : List (Expr × Expr)}
    (h : ∀ entry ∈ entries,
      (∀ first second, entry.1.serializeOnto (first ++ second) =
        entry.1.serializeOnto first ++ second) ∧
      ∀ first second, entry.2.serializeOnto (first ++ second) =
        entry.2.serializeOnto first ++ second)
    (first second : Bytes) :
    serializeEntries entries (first ++ second) = serializeEntries entries first ++ second := by
  induction entries with
  | nil => rfl
  | cons entry more ih =>
      rcases entry with ⟨key, value⟩
      obtain ⟨⟨hkey, hvalue⟩, hmore⟩ := List.forall_mem_cons.mp h
      simp only [serializeEntries, ih hmore, hvalue, hkey]

/-- The bytes of a node do not depend on what follows them. -/
theorem serializeOnto_append (e : Expr) (first second : Bytes) :
    e.serializeOnto (first ++ second) = e.serializeOnto first ++ second := by
  induction e using Expr.induction generalizing first second with
  | absent => rfl
  | literal span bits => simp only [serializeOnto, List.cons_append, List.append_assoc]
  | scope span => rfl
  | set span entries ih =>
      simp only [serializeOnto, serializeEntries_append ih, List.cons_append, List.append_assoc]
  | function span pattern body ihpattern ihbody =>
      simp only [serializeOnto, ihbody, ihpattern, List.cons_append]
  | combine span left right ihleft ihright =>
      simp only [serializeOnto, ihright, ihleft, List.cons_append]

theorem length_eraseEntries (entries : List (Expr × Expr)) :
    (eraseEntries entries).length = entries.length := by
  induction entries with
  | nil => rfl
  | cons entry more ih => simp only [eraseEntries, List.length_cons, ih]

theorem serializeEntries_eraseEntries {entries : List (Expr × Expr)}
    (h : ∀ entry ∈ entries,
      (∀ rest, entry.1.eraseSpans.serializeOnto rest = entry.1.serializeOnto rest) ∧
      ∀ rest, entry.2.eraseSpans.serializeOnto rest = entry.2.serializeOnto rest)
    (rest : Bytes) :
    serializeEntries (eraseEntries entries) rest = serializeEntries entries rest := by
  induction entries with
  | nil => rfl
  | cons entry more ih =>
      rcases entry with ⟨key, value⟩
      obtain ⟨⟨hkey, hvalue⟩, hmore⟩ := List.forall_mem_cons.mp h
      simp only [eraseEntries, serializeEntries, ih hmore, hvalue, hkey]

/-- Spans leave no trace in a serialization. -/
theorem serializeOnto_eraseSpans (e : Expr) (rest : Bytes) :
    e.eraseSpans.serializeOnto rest = e.serializeOnto rest := by
  induction e using Expr.induction generalizing rest with
  | absent | literal | scope => rfl
  | set span entries ih =>
      simp only [eraseSpans, serializeOnto, serializeEntries_eraseEntries ih, length_eraseEntries]
  | function span pattern body ihpattern ihbody =>
      simp only [eraseSpans, serializeOnto, ihpattern, ihbody]
  | combine span left right ihleft ihright =>
      simp only [eraseSpans, serializeOnto, ihleft, ihright]

/-- A tree, up to spans, and whatever follows its bytes can be read off its serialization;
so whole serializations are the same exactly for trees that agree up to spans. -/
theorem serialize_identifies {e e' : Expr} (he : e.Canonical) (he' : e'.Canonical)
    (hfits : e.Fits) (hfits' : e'.Fits) :
    (∀ rest rest' : Bytes, e.serializeOnto [] ++ rest = e'.serializeOnto [] ++ rest' →
      e.eraseSpans = e'.eraseSpans ∧ rest = rest') ∧
    (e.serialize = e'.serialize ↔ e.eraseSpans = e'.eraseSpans) := by
  refine ⟨fun rest rest' h => ?_, eraseSpans_eq_of_serialize_eq he he' hfits hfits', fun h => ?_⟩
  · rw [← serializeOnto_append, ← serializeOnto_append] at h
    exact e.serializesApart he hfits he' hfits' h
  · rw [serialize, serialize, ← serializeOnto_eraseSpans e, h, serializeOnto_eraseSpans]

/-- A set whose one key spells the tags of two nodes, and whose value is a function
without a pattern. -/
def tagLike (span : Span) : Expr :=
  .set span [(.literal span ⟨16, [0x12, 0x03]⟩, .function span .absent (.scope span))]

/-- The set is known from its serialization, and where it was read makes no difference to
that. -/
theorem serialize_tagLike_identifies :
    (tagLike .none).Canonical ∧ (tagLike .none).Fits ∧
      (∀ rest rest' : Bytes, (tagLike .none).serializeOnto [] ++ rest =
          (tagLike ⟨⟨4, 1, 5⟩, ⟨9, 2, 1⟩⟩).serializeOnto [] ++ rest' →
        (tagLike .none).eraseSpans = (tagLike ⟨⟨4, 1, 5⟩, ⟨9, 2, 1⟩⟩).eraseSpans ∧ rest = rest') ∧
      ((tagLike .none).serialize = (tagLike ⟨⟨4, 1, 5⟩, ⟨9, 2, 1⟩⟩).serialize ↔
        (tagLike .none).eraseSpans = (tagLike ⟨⟨4, 1, 5⟩, ⟨9, 2, 1⟩⟩).eraseSpans) := by
  have hcanonical (span : Span) : (tagLike span).Canonical :=
    ⟨trivial, BitSeq.canonical_ofBytes [0x12, 0x03], ⟨trivial, trivial, trivial⟩, trivial⟩
  have hfits (span : Span) : (tagLike span).Fits :=
    ⟨(by decide : 1 < 2 ^ 32), (by decide : 16 < 2 ^ 32), ⟨trivial, trivial, trivial⟩, trivial⟩
  exact ⟨hcanonical _, hfits _,
    serialize_identifies (hcanonical _) (hcanonical _) (hfits _) (hfits _)⟩

end BitLang.Expr
