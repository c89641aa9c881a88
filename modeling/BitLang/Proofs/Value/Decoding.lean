/-
# What is read from the wire is normal

Bytes from anywhere may hold a value in many spellings, and entries with the same key more
than once.  Whatever value is read from them is well-formed and holds no function, and it is
what the parts on the wire stand for: a bit sequence has the stated length and the bits of the
data up to there, and a set binds its entries in order, so that the last value of a key counts
in the place of the first.

Such a value travels again and comes back the same.  Its new encoding may nest deeper than the
bytes it was read from: an entry that is null, or that has no value, takes fewer levels there
than when it is written out.  The limit on nesting leaves room for the difference, because it
is one more than a multiple of three and every set takes three levels.
-/

import BitLang.Proofs.Bindings.History
import BitLang.Proofs.Value.RoundTrip

namespace BitLang

open Cbor Wire

namespace Wire

/-! ## What the parts on the wire stand for -/

/-- The bits that a length and data stand for: as many as the length says, in data with just
the bytes that they take.  What the last byte holds behind them does not count. -/
structure Spells (len : Int) (data : Bytes) (b : BitSeq) : Prop where
  canonical : b.Canonical
  len_eq : (b.len : Int) = len
  len_le : b.len ≤ maxBits
  length_eq : data.length = byteCount b.len
  toList_eq : b.toList = (unpack data).take b.len

/-- The value that the parts of a node stand for.  A set is what its entries make when they
are bound in order. -/
inductive Node.Denotes : Node → Value → Prop
  | null {len : Int} {data : Bytes} {entries : List (Int × Bytes × Node)} :
      Denotes (.mk 0 len data entries) .null
  | bits {len : Int} {data : Bytes} {entries : List (Int × Bytes × Node)} {b : BitSeq} :
      Spells len data b → Denotes (.mk 1 len data entries) (.bits b)
  | set {len : Int} {data : Bytes} {entries : List (Int × Bytes × Node)}
      {bound : List (BitSeq × Value)} {s : Scope} : bound.length = entries.length →
      (∀ pair ∈ entries.zip bound, Spells pair.1.1 pair.1.2.1 pair.2.1) →
      (∀ pair ∈ entries.zip bound, Denotes pair.1.2.2 pair.2.2) → s.Follows bound →
      Denotes (.mk 2 len data entries) (.set s)

/-! ## Parts within the limits -/

/-- The number is a signed 64-bit word. -/
def IsWord (n : Int) : Prop := -0x8000000000000000 ≤ n ∧ n ≤ 0x7FFFFFFFFFFFFFFF

/-- The lengths are words, and the entries keep to the limits, where the node stands inside
`depth` arrays and maps.  There need be no level for an entry that is null, or for its value. -/
inductive Node.Within : Nat → Node → Prop
  | mk {depth kind : Nat} {len : Int} {data : Bytes} {entries : List (Int × Bytes × Node)} :
      IsWord len → entries.length ≤ maxElements →
      (entries ≠ [] → depth + 1 < Cbor.maxNesting) → (∀ entry ∈ entries, IsWord entry.1) →
      (∀ entry ∈ entries, Within (depth + 3) entry.2.2) → Within depth (.mk kind len data entries)

/-- The same for a list of entries that stands inside `depth` arrays and maps. -/
structure EntriesWithin (depth : Nat) (entries : List (Int × Bytes × Node)) : Prop where
  length_le : entries.length ≤ maxElements
  nesting : entries ≠ [] → depth < Cbor.maxNesting
  words : ∀ entry ∈ entries, IsWord entry.1
  nodes : ∀ entry ∈ entries, entry.2.2.Within (depth + 2)

theorem within_mk_iff {depth kind : Nat} {len : Int} {data : Bytes}
    {entries : List (Int × Bytes × Node)} :
    (Node.mk kind len data entries).Within depth ↔
      IsWord len ∧ EntriesWithin (depth + 1) entries := by
  constructor
  · intro h
    cases h with
    | mk hlen hlength hnesting hwords hnodes => exact ⟨hlen, hlength, hnesting, hwords, hnodes⟩
  · rintro ⟨hlen, hentries⟩
    exact .mk hlen hentries.length_le hentries.nesting hentries.words hentries.nodes

theorem isWord_zero : IsWord 0 := by
  unfold IsWord
  omega

theorem entriesWithin_nil (depth : Nat) : EntriesWithin depth [] where
  length_le := Nat.zero_le _
  nesting h := absurd rfl h
  words := List.forall_mem_nil _
  nodes := List.forall_mem_nil _

theorem within_zero (depth : Nat) : Node.zero.Within depth :=
  within_mk_iff.mpr ⟨isWord_zero, entriesWithin_nil _⟩

/-! ## What is read keeps to the limits -/

theorem mismatch_ne_ok {α : Type} {item : Item} {a : α} : mismatch item ≠ .ok a := by
  intro h
  unfold mismatch at h
  split at h
  · cases h
  · cases h

theorem isWord_of_readInt {item : Item} {n : Int} (h : readInt item = .ok n) : IsWord n := by
  unfold readInt readNumber at h
  obtain ⟨inner, -, h⟩ := exists_of_bind_eq_ok h
  split at h
  · cases h
    exact isWord_zero
  · split at h
    · split at h
      · next hrange =>
          cases h
          exact hrange
      · cases h
    · exact absurd h mismatch_ne_ok

/-- What can be read of an item keeps to the limits. -/
structure ReadsWithin (depth : Nat) (item : Item) : Prop where
  node : ∀ {node : Node}, readNode item = .ok node → node.Within depth
  entries : ∀ {entries : List (Int × Bytes × Node)}, readEntries item = .ok entries →
    EntriesWithin depth entries
  entry : ∀ {entry : Int × Bytes × Node}, readEntry item = .ok entry →
    IsWord entry.1 ∧ entry.2.2.Within (depth + 1)

/-- Reading part after part keeps the node so far within the limits. -/
theorem within_of_readNodeParts {depth : Nat} {seen : List Int} {node node' : Node}
    {pairs : List (Item × Item)} (hpairs : ∀ pair ∈ pairs, ReadsWithin (depth + 1) pair.2)
    (hnode : node.Within depth) (h : readNodeParts seen node pairs = .ok node') :
    node'.Within depth := by
  induction pairs generalizing seen node with
  | nil =>
      rw [readNodeParts_nil] at h
      cases h
      exact hnode
  | cons pair rest ih =>
      rcases pair with ⟨key, value⟩
      rcases node with ⟨kind, len, data, entries⟩
      obtain ⟨hvalue, hrest⟩ := List.forall_mem_cons.mp hpairs
      obtain ⟨hlen, hentries⟩ := within_mk_iff.mp hnode
      rw [readNodeParts] at h
      obtain ⟨name, -, h⟩ := exists_of_bind_eq_ok h
      split at h
      · exact ih hrest hnode h
      · split at h
        · obtain ⟨kind', -, h⟩ := exists_of_bind_eq_ok h
          exact ih hrest (within_mk_iff.mpr ⟨hlen, hentries⟩) h
        · obtain ⟨len', hlen', h⟩ := exists_of_bind_eq_ok h
          exact ih hrest (within_mk_iff.mpr ⟨isWord_of_readInt hlen', hentries⟩) h
        · obtain ⟨data', -, h⟩ := exists_of_bind_eq_ok h
          exact ih hrest (within_mk_iff.mpr ⟨hlen, hentries⟩) h
        · obtain ⟨entries', hentries', h⟩ := exists_of_bind_eq_ok h
          exact ih hrest (within_mk_iff.mpr ⟨hlen, hvalue.entries hentries'⟩) h
        · exact ih hrest hnode h

theorem within_of_readEntryParts {depth : Nat} {seen : List Int} {entry entry' : Int × Bytes × Node}
    {pairs : List (Item × Item)} (hpairs : ∀ pair ∈ pairs, ReadsWithin depth pair.2)
    (hentry : IsWord entry.1 ∧ entry.2.2.Within depth)
    (h : readEntryParts seen entry pairs = .ok entry') :
    IsWord entry'.1 ∧ entry'.2.2.Within depth := by
  induction pairs generalizing seen entry with
  | nil =>
      rw [readEntryParts] at h
      cases h
      exact hentry
  | cons pair rest ih =>
      rcases pair with ⟨key, value⟩
      rcases entry with ⟨len, data, node⟩
      obtain ⟨hvalue, hrest⟩ := List.forall_mem_cons.mp hpairs
      rw [readEntryParts] at h
      obtain ⟨name, -, h⟩ := exists_of_bind_eq_ok h
      split at h
      · exact ih hrest hentry h
      · split at h
        · obtain ⟨len', hlen', h⟩ := exists_of_bind_eq_ok h
          exact @ih _ (len', data, node) hrest ⟨isWord_of_readInt hlen', hentry.2⟩ h
        · obtain ⟨data', -, h⟩ := exists_of_bind_eq_ok h
          exact @ih _ (len, data', node) hrest hentry h
        · obtain ⟨node', hnode', h⟩ := exists_of_bind_eq_ok h
          exact @ih _ (len, data, node') hrest ⟨hentry.1, hvalue.node hnode'⟩ h
        · exact ih hrest hentry h

theorem eq_of_isNil_or_mismatch {α : Type} {item : Item} {a b : α}
    (h : (if isNil item then .ok b else mismatch item) = Except.ok a) : a = b := by
  split at h
  · exact (Except.ok.inj h).symm
  · exact absurd h mismatch_ne_ok

/-- What is neither a map nor tagged is read as a node without parts, or not at all. -/
theorem within_of_readNode {depth : Nat} {item : Item} {node : Node} (h : readNode item = .ok node)
    (hmap : ∀ pairs, item ≠ .map pairs) (htag : ∀ number content, item ≠ .tag number content) :
    node.Within depth := by
  rw [readNode.eq_3 item hmap htag] at h
  rw [eq_of_isNil_or_mismatch h]
  exact within_zero depth

theorem entriesWithin_of_readEntries {depth : Nat} {item : Item}
    {entries : List (Int × Bytes × Node)} (h : readEntries item = .ok entries)
    (harray : ∀ items, item ≠ .array items)
    (htag : ∀ number content, item ≠ .tag number content) : EntriesWithin depth entries := by
  rw [readEntries.eq_3 item harray htag] at h
  rw [eq_of_isNil_or_mismatch h]
  exact entriesWithin_nil depth

theorem within_of_readEntry {depth : Nat} {item : Item} {entry : Int × Bytes × Node}
    (h : readEntry item = .ok entry) (hmap : ∀ pairs, item ≠ .map pairs)
    (htag : ∀ number content, item ≠ .tag number content) :
    IsWord entry.1 ∧ entry.2.2.Within depth := by
  rw [readEntry.eq_3 item hmap htag] at h
  rw [eq_of_isNil_or_mismatch h]
  exact ⟨isWord_zero, within_zero depth⟩

theorem eq_ok_of_admits {α : Type} {number : Nat} {content : Item} {read : Except WireError α}
    {a : α} (h : (if !admits number content then .error .malformed else read) = .ok a) :
    read = .ok a := by
  split at h
  · cases h
  · exact h

theorem exists_item_of_readEntryList {items : List Item} {entries : List (Int × Bytes × Node)}
    (h : readEntryList items = .ok entries) : entries.length = items.length ∧
      ∀ entry ∈ entries, ∃ item ∈ items, readEntry item = .ok entry := by
  induction items generalizing entries with
  | nil =>
      rw [readEntryList] at h
      cases h
      exact ⟨rfl, List.forall_mem_nil _⟩
  | cons item rest ih =>
      rw [readEntryList] at h
      obtain ⟨entry, hentry, h⟩ := exists_of_bind_eq_ok h
      obtain ⟨more, hmore, h⟩ := exists_of_bind_eq_ok h
      cases h
      obtain ⟨hlength, hread⟩ := ih hmore
      refine ⟨congrArg Nat.succ hlength, List.forall_mem_cons.mpr ⟨?_, fun later hmem => ?_⟩⟩
      · exact ⟨item, List.mem_cons_self .., hentry⟩
      · obtain ⟨source, hsource, hlater⟩ := hread later hmem
        exact ⟨source, List.mem_cons_of_mem item hsource, hlater⟩

theorem entriesWithin_of_readEntryList {depth : Nat} {items : List Item}
    (hdepth : depth < Cbor.maxNesting) (hlength : items.length ≤ maxElements)
    (hitems : ∀ item ∈ items, ReadsWithin (depth + 1) item) {entries : List (Int × Bytes × Node)}
    (h : readEntryList items = .ok entries) : EntriesWithin depth entries := by
  obtain ⟨hsame, hread⟩ := exists_item_of_readEntryList h
  have hentries : ∀ entry ∈ entries, IsWord entry.1 ∧ entry.2.2.Within (depth + 2) := by
    intro entry hmem
    obtain ⟨item, hitem, hentry⟩ := hread entry hmem
    exact (hitems item hitem).entry hentry
  exact ⟨by omega, fun _ => hdepth, fun entry hmem => (hentries entry hmem).1,
    fun entry hmem => (hentries entry hmem).2⟩

/-- Whatever is read of an item within the limits keeps to them. -/
theorem readsWithin_of_fits {depth : Nat} {item : Item} (h : item.Fits depth) :
    ReadsWithin depth item := by
  induction h with
  | unsigned | negative | bytes | text | simple | float =>
      exact ⟨fun h => within_of_readNode h (by simp) (by simp),
        fun h => entriesWithin_of_readEntries h (by simp) (by simp),
        fun h => within_of_readEntry h (by simp) (by simp)⟩
  | tag number _ ih =>
      refine ⟨fun h => ?_, fun h => ?_, fun h => ?_⟩
      · rw [readNode] at h
        exact ih.node (eq_ok_of_admits h)
      · rw [readEntries] at h
        exact ih.entries (eq_ok_of_admits h)
      · rw [readEntry] at h
        exact ih.entry (eq_ok_of_admits h)
  | array hdepth hlength _ ih =>
      refine ⟨fun h => within_of_readNode h (by simp) (by simp), fun h => ?_,
        fun h => within_of_readEntry h (by simp) (by simp)⟩
      rw [readEntries] at h
      exact entriesWithin_of_readEntryList hdepth hlength ih h
  | map _ _ _ _ _ ih =>
      refine ⟨fun h => ?_, fun h => entriesWithin_of_readEntries h (by simp) (by simp), fun h => ?_⟩
      · rw [readNode] at h
        exact within_of_readNodeParts ih (within_zero _) h
      · rw [readEntry] at h
        exact within_of_readEntryParts ih ⟨isWord_zero, within_zero _⟩ h

/-! ## What the parts are read as -/

theorem spells_of_toBits {len : Int} {data : Bytes} {b : BitSeq} (hword : IsWord len)
    (h : toBits len data = .ok b) : Spells len data b := by
  unfold toBits at h
  split at h
  · cases h
  · next hfits =>
      obtain ⟨hsign, hcount⟩ := not_or.mp hfits
      have hcount : (data.length : Int) = byteCount64 len := Classical.not_not.mp hcount
      obtain ⟨n, rfl⟩ := Int.eq_ofNat_of_zero_le (Int.not_lt.mp hsign)
      cases h
      have hmax : n ≤ maxBits := by
        by_contra hgreat
        obtain ⟨-, hword⟩ := hword
        unfold maxBits at hgreat
        have hneg := byteCount64_neg (show 2 ^ 63 - 8 < (n : Int) by omega) (by omega)
        omega
      have hlength : data.length = byteCount n := by
        rw [byteCount64_natCast hmax] at hcount
        exact Int.ofNat_inj.mp hcount
      have hbits : n ≤ (unpack data).length := by
        rw [length_unpack, hlength, byteCount]
        omega
      refine ⟨BitSeq.canonical_ofData .., rfl, hmax, hlength, ?_⟩
      show (BitSeq.ofData data n).toList = (unpack data).take n
      rw [BitSeq.ofData_eq_ofList, BitSeq.toList_ofList]
      exact List.take_append_of_le_length hbits

theorem exists_of_map_eq_ok {α β : Type} {x : Except WireError α} {f : α → β} {b : β}
    (h : x.map f = .ok b) : ∃ a, x = .ok a ∧ f a = b := by
  cases x with
  | error error => cases h
  | ok a => exact ⟨a, rfl, Except.ok.inj h⟩

/-- The entries are bound in order. -/
theorem exists_of_toEntries {done s : Scope} {entries : List (Int × Bytes × Node)}
    (h : toEntries done entries = .ok s) :
    ∃ bound, s = done.insertAll bound ∧ bound.length = entries.length ∧
      ∀ pair ∈ entries.zip bound,
        toBits pair.1.1 pair.1.2.1 = .ok pair.2.1 ∧ toValue pair.1.2.2 = .ok pair.2.2 := by
  induction entries generalizing done with
  | nil =>
      rw [toEntries] at h
      cases h
      exact ⟨[], rfl, rfl, List.forall_mem_nil _⟩
  | cons entry rest ih =>
      rcases entry with ⟨len, data, node⟩
      rw [toEntries] at h
      obtain ⟨key, hkey, h⟩ := exists_of_bind_eq_ok h
      obtain ⟨value, hvalue, h⟩ := exists_of_bind_eq_ok h
      obtain ⟨bound, hs, hlength, hbound⟩ := ih h
      exact ⟨(key, value) :: bound, hs, congrArg Nat.succ hlength,
        List.forall_mem_cons.mpr ⟨⟨hkey, hvalue⟩, hbound⟩⟩

/-- Whatever value is read stands for the parts that it was read from. -/
theorem denotes_of_toValue {depth : Nat} {node : Node} (hnode : node.Within depth) {v : Value}
    (h : toValue node = .ok v) : node.Denotes v := by
  induction hnode generalizing v with
  | @mk depth kind len data entries hlen _ _ hwords _ ih =>
      match kind with
      | 0 =>
          rw [toValue] at h
          cases h
          exact .null
      | 1 =>
          rw [toValue] at h
          obtain ⟨b, hb, rfl⟩ := exists_of_map_eq_ok h
          exact .bits (spells_of_toBits hlen hb)
      | 2 =>
          rw [toValue] at h
          obtain ⟨s, hs, rfl⟩ := exists_of_map_eq_ok h
          obtain ⟨bound, rfl, hlength, hbound⟩ := exists_of_toEntries hs
          refine .set hlength ?_ ?_ (Bindings.follows_empty.insertAll bound)
          · intro pair hmem
            exact spells_of_toBits (hwords _ (List.of_mem_zip hmem).1) (hbound pair hmem).1
          · intro pair hmem
            exact ih _ (List.of_mem_zip hmem).1 (hbound pair hmem).2
      | kind + 3 => simp [toValue] at h

namespace Node.Denotes

variable {depth : Nat} {node : Node} {v : Value}

/-- Every entry of a set was read from one of the entries on the wire. -/
theorem exists_part {entries : List (Int × Bytes × Node)} {bound : List (BitSeq × Value)}
    {s : Scope} (hlength : bound.length = entries.length) (hs : s.Follows bound)
    {entry : BitSeq × Value} (hmem : entry ∈ s.toList) :
    ∃ part, (part, entry) ∈ entries.zip bound := by
  have hbound : entry ∈ (entries.zip bound).map Prod.snd := by
    rw [List.map_snd_zip hlength.le]
    exact hs.mem_history hmem
  obtain ⟨⟨part, binding⟩, hpair, rfl⟩ := List.mem_map.mp hbound
  exact ⟨part, hpair⟩

theorem wellFormed (h : node.Denotes v) : v.WellFormed := by
  induction h with
  | null => exact .null
  | bits hb => exact .bits hb.canonical
  | set hlength hkeys _ hs ih =>
      refine .set hs.wellFormed (fun entry hmem => ?_) (fun entry hmem => ?_)
      · obtain ⟨part, hpart⟩ := exists_part hlength hs hmem
        exact (hkeys _ hpart).canonical
      · obtain ⟨part, hpart⟩ := exists_part hlength hs hmem
        exact ih _ hpart

theorem not_holdsFunction (h : node.Denotes v) : ¬v.HoldsFunction := by
  induction h with
  | null | bits =>
      intro h
      cases h
  | set hlength _ _ hs ih =>
      rintro ⟨⟩
      next entry hholds hmem =>
        obtain ⟨part, hpart⟩ := exists_part hlength hs hmem
        exact ih _ hpart hholds

/-- A set has no more entries than there were on the wire. -/
theorem moderate (hnode : node.Within depth) (h : node.Denotes v) : v.Moderate := by
  induction h generalizing depth with
  | null => exact .null
  | bits hb => exact .bits hb.len_le
  | @set _ _ entries bound s hlength hkeys _ hs ih =>
      obtain ⟨-, hentries⟩ := within_mk_iff.mp hnode
      refine .set ?_ (fun entry hmem => ?_) (fun entry hmem => ?_)
      · calc s.size
          _ = (bound.map Prod.fst).toFinset.card := hs.size_eq
          _ ≤ (bound.map Prod.fst).length := List.toFinset_card_le _
          _ = entries.length := by rw [List.length_map, hlength]
          _ ≤ maxElements := hentries.length_le
      · obtain ⟨part, hpart⟩ := exists_part hlength hs hmem
        exact (hkeys _ hpart).len_le
      · obtain ⟨part, hpart⟩ := exists_part hlength hs hmem
        exact ih _ hpart (hentries.nodes _ (List.of_mem_zip hpart).1)

/-- A value takes no more levels than there are.  A set whose entries were all null or without
a value was read from fewer levels than it takes, but its own level is a multiple of three, and
so there are two more. -/
theorem levels_le (hnode : node.Within depth) (h : node.Denotes v) (hthree : 3 ∣ depth)
    (hdepth : depth < Cbor.maxNesting) : depth + v.levels ≤ Cbor.maxNesting := by
  induction h generalizing depth with
  | null | bits => exact hdepth
  | @set _ _ entries bound s hlength _ _ hs ih =>
      obtain ⟨-, hentries⟩ := within_mk_iff.mp hnode
      rw [Value.levels_set]
      by_cases hnone : s.toList = []
      · rw [hnone]
        exact hdepth
      · have hsome : entries ≠ [] := by
          obtain ⟨first, hfirst⟩ := List.exists_mem_of_ne_nil _ hnone
          obtain ⟨part, hpart⟩ := exists_part hlength hs hfirst
          exact List.ne_nil_of_mem (List.of_mem_zip hpart).1
        -- the list of entries has a level, and the limit does not fall between it and the values
        have hinner : depth + 3 < Cbor.maxNesting := by
          have hnesting := hentries.nesting hsome
          unfold Cbor.maxNesting at hnesting ⊢
          omega
        have hmost : Value.mostLevels s.toList ≤ Cbor.maxNesting - (depth + 3) := by
          apply Value.mostLevels_le_iff.mpr
          intro entry hmem
          obtain ⟨part, hpart⟩ := exists_part hlength hs hmem
          have hlevels := ih _ hpart (hentries.nodes _ (List.of_mem_zip hpart).1)
            ((Nat.dvd_add_right hthree).mpr (Nat.dvd_refl 3)) hinner
          dsimp only at hlevels
          omega
        rw [if_neg (by simpa using hnone)]
        omega

end Node.Denotes

end Wire

namespace Value

/-- A value that was read stands for the parts that it was read from.  It is well-formed and
holds no function, and it travels and comes back the same. -/
theorem unmarshal_normalises {bytes : Bytes} {v : Value} (h : unmarshal bytes = .ok v) :
    (∃ item node, Item.read? bytes = some item ∧ readNode item = .ok node ∧ node.Denotes v) ∧
      v.WellFormed ∧ ¬v.HoldsFunction ∧
      ∃ again, v.marshal? = some again ∧ unmarshal again = .ok v := by
  unfold unmarshal at h
  split at h
  · cases h
  · next item hitem =>
      obtain ⟨node, hnode, hvalue⟩ := exists_of_bind_eq_ok h
      have hwithin := (readsWithin_of_fits (Item.fits_of_read? hitem)).node hnode
      have hdenotes := denotes_of_toValue hwithin hvalue
      have hlevels := hdenotes.levels_le hwithin (Nat.dvd_zero 3) (by decide)
      rw [Nat.zero_add] at hlevels
      refine ⟨⟨item, node, hitem, hnode, hdenotes⟩, hdenotes.wellFormed,
        hdenotes.not_holdsFunction, ?_⟩
      obtain ⟨again, hagain⟩ : ∃ again, v.marshal? = some again := by
        apply Option.ne_none_iff_exists'.mp
        rw [marshal?, ne_eq, Option.map_eq_none_iff, ofValue?_eq_none_iff]
        exact hdenotes.not_holdsFunction
      have hback := unmarshal_of_levels_le (packed_of_wellFormed hdenotes.wellFormed)
        (hdenotes.moderate hwithin) hagain hlevels
      rw [asRead_of_wellFormed hdenotes.wellFormed] at hback
      exact ⟨again, hagain, hback⟩

/-- A set whose length is left open binds the key `1` first to null and then to `0`.  The
bytes of the first key and of the value hold more bits than they should. -/
def lenientBytes : Bytes :=
  [0xBF, 0x01, 0x02, 0x04, 0x9F, 0xA3, 0x01, 0x01, 0x02, 0x41, 0xFF, 0x03, 0xF6, 0xA3, 0x01, 0x01,
    0x02, 0x41, 0x80, 0x03, 0xA3, 0x01, 0x01, 0x02, 0x01, 0x03, 0x41, 0x7F, 0xFF, 0xFF]

theorem read?_lenientBytes : Item.read? lenientBytes = some
    (.map [(.unsigned 1, .unsigned 2), (.unsigned 4, .array [
      .map [(.unsigned 1, .unsigned 1), (.unsigned 2, .bytes [0xFF]), (.unsigned 3, .simple 22)],
      .map [(.unsigned 1, .unsigned 1), (.unsigned 2, .bytes [0x80]), (.unsigned 3,
        .map [(.unsigned 1, .unsigned 1), (.unsigned 2, .unsigned 1),
          (.unsigned 3, .bytes [0x7F])])]])]) := by
  cbv

theorem lenientBytes_normalise :
    ∃ s : Scope, unmarshal lenientBytes = .ok (set s) ∧
      s.toList = [(.ofDigits [0x31], bits (.ofDigits [0x30]))] ∧
      ∃ again, (set s).marshal? = some again ∧ unmarshal again = .ok (set s) := by
  have hread : unmarshal lenientBytes = .ok (set (.ofList
      [(.ofDigits [0x31], null), (.ofDigits [0x31], bits (.ofDigits [0x30]))])) := by
    rw [unmarshal, read?_lenientBytes]
    rfl
  exact ⟨_, hread, by cbv, (unmarshal_normalises hread).2.2.2⟩

end Value

end BitLang
