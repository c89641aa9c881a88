/-
# Values travel and come back

A value travels unless it holds a function.  It comes back as it was, with null in place of
what was absent, as long as it keeps to the limits of the format: the number of entries of a
set, the length of a bit sequence, and the nesting of sets.  Each set takes three levels, for
itself, for the list of its entries and for each entry, and whatever holds no entries takes
one.

Of an index, only the order of the keys travels.  The index that a set gets when it comes
back is the one that its keys get when they are bound in order.
-/

import BitLang.Proofs.BitSeq.KeyReading
import BitLang.Proofs.Cbor.Limits
import BitLang.Proofs.Value.Wire

namespace BitLang

open Cbor Wire

/-- The longest bit sequence whose bytes can be counted in signed 64-bit arithmetic. -/
def Wire.maxBits : Nat := 0x7FFFFFFFFFFFFFF8

namespace Value

/-! ## What travels, and how deep it nests -/

/-- The value is a function, or a set that holds one, however deep. -/
inductive HoldsFunction : Value → Prop
  | function {scope : Scope} {pattern : BitSeq} {body : Expr} :
      HoldsFunction (.function scope pattern body)
  | entry {s : Scope} {entry : BitSeq × Value} : entry ∈ s.toList → HoldsFunction entry.2 →
      HoldsFunction (.set s)

mutual

/-- The number of levels that a value takes. -/
def levels : Value → Nat
  | set ⟨⟨entries⟩, _⟩ => if entries.isEmpty then 1 else 3 + mostLevels entries
  | absent | null | bits _ | function _ _ _ => 1

/-- The most levels that the value of an entry takes. -/
def mostLevels : List (BitSeq × Value) → Nat
  | [] => 0
  | (_, value) :: rest => max value.levels (mostLevels rest)

end

/-- The value, absent or not, is packed canonically, and no key of its sets stands twice. -/
inductive Packed : Value → Prop
  | absent : Packed .absent
  | null : Packed .null
  | bits {b : BitSeq} : b.Canonical → Packed (.bits b)
  | set {s : Scope} : s.keys.Nodup → (∀ entry ∈ s.toList, entry.1.Canonical) →
      (∀ entry ∈ s.toList, Packed entry.2) → Packed (.set s)
  | function {scope : Scope} {pattern : BitSeq} {body : Expr} :
      Packed (.function scope pattern body)

/-- The sets of the value have no more entries, and its bit sequences are no longer, than the
format allows. -/
inductive Moderate : Value → Prop
  | absent : Moderate .absent
  | null : Moderate .null
  | bits {b : BitSeq} : b.len ≤ maxBits → Moderate (.bits b)
  | set {s : Scope} : s.size ≤ maxElements → (∀ entry ∈ s.toList, entry.1.len ≤ maxBits) →
      (∀ entry ∈ s.toList, Moderate entry.2) → Moderate (.set s)

mutual

/-- The value as it comes back: null in place of what was absent, and with every set its keys
in order and the index of these keys. -/
def asRead : Value → Value
  | absent => null
  | null => null
  | bits b => bits b
  | set ⟨⟨entries⟩, _⟩ =>
    set ⟨⟨entriesAsRead entries⟩, Bindings.indexOf (entries.map Prod.fst)⟩
  | function scope pattern body => function scope pattern body

/-- The entries of a set as they come back. -/
def entriesAsRead : List (BitSeq × Value) → List (BitSeq × Value)
  | [] => []
  | (key, value) :: rest => (key, value.asRead) :: entriesAsRead rest

end

theorem entriesAsRead_eq_map (entries : List (BitSeq × Value)) :
    entriesAsRead entries = entries.map fun (key, value) => (key, value.asRead) := by
  induction entries with
  | nil => rfl
  | cons entry rest ih => rw [entriesAsRead, ih, List.map_cons]

theorem levels_set (s : Scope) :
    (set s).levels = if s.toList.isEmpty then 1 else 3 + mostLevels s.toList := by
  rcases s with ⟨⟨entries⟩, index⟩
  rw [levels]
  rfl

theorem mostLevels_le_iff {entries : List (BitSeq × Value)} {n : Nat} :
    mostLevels entries ≤ n ↔ ∀ entry ∈ entries, entry.2.levels ≤ n := by
  induction entries with
  | nil => simp [mostLevels]
  | cons entry rest ih => rw [mostLevels, Nat.max_le, ih, List.forall_mem_cons]

theorem asRead_set (s : Scope) :
    (set s).asRead = set ⟨(s.map asRead).entries, Bindings.indexOf s.keys⟩ := by
  rcases s with ⟨⟨entries⟩, index⟩
  simp only [asRead, entriesAsRead_eq_map, Bindings.map, Bindings.keys, Bindings.toList,
    List.map_toArray]

/-- A set comes back as what its entries make when they are bound in order. -/
theorem asRead_set_of_nodup {s : Scope} (h : s.keys.Nodup) :
    (set s).asRead = set (.ofList (s.map asRead).toList) := by
  have hkeys : (s.map asRead).keys = s.keys := Bindings.keys_map asRead s
  have hread : Bindings.WellFormed ⟨(s.map asRead).entries, Bindings.indexOf s.keys⟩ :=
    ⟨by rw [← hkeys] at h; exact h, congrArg Bindings.indexOf hkeys.symm⟩
  rw [asRead_set, hread.ofList_toList.symm]
  rfl

/-- A well-formed value comes back as it was. -/
theorem asRead_of_wellFormed {v : Value} (h : v.WellFormed) : v.asRead = v := by
  induction v using Value.induction with
  | absent => cases h
  | null | bits | function => rfl
  | set s ih =>
      have hs := madeOf_set_iff.mp h
      have hvalues : s.toList.map (fun (key, value) => (key, value.asRead)) = s.toList := by
        refine (List.map_congr_left fun entry hmem => ?_).trans (List.map_id _)
        have hvalue := ih entry.2 (List.mem_map_of_mem hmem) (hs.entries entry hmem).2
        exact congrArg (Prod.mk entry.1) hvalue
      rw [asRead_set_of_nodup hs.wellFormed.nodup, Bindings.toList_map, hvalues,
        hs.wellFormed.ofList_toList]

theorem packed_of_wellFormed {v : Value} (h : v.WellFormed) : v.Packed := by
  induction h with
  | null => exact .null
  | bits hb => exact .bits hb
  | set hs hkeys _ ih => exact .set hs.nodup hkeys ih
  | function => exact .function

/-! ## Whether a value travels -/

end Value

namespace Wire

/-- Entries do not travel if one of their values does not. -/
theorem ofEntryList?_eq_none_iff {entries : List (BitSeq × Value)} :
    ofEntryList? entries = none ↔ ∃ entry ∈ entries, ofValue? entry.2 = none := by
  induction entries with
  | nil => simp [ofEntryList?]
  | cons entry rest ih =>
      rw [ofEntryList?_cons, Option.bind_eq_none_iff, List.exists_mem_cons_iff, ← ih]
      cases ofValue? entry.2 <;> simp

theorem ofValue?_eq_none_iff (v : Value) : ofValue? v = none ↔ v.HoldsFunction := by
  induction v using Value.induction with
  | absent | null | bits =>
      constructor
      · intro h
        cases h
      · intro h
        cases h
  | function scope pattern body => exact ⟨fun _ => .function, fun _ => rfl⟩
  | set s ih =>
      rw [ofValue?_set, Option.map_eq_none_iff, ofEntryList?_eq_none_iff]
      constructor
      · rintro ⟨entry, hmem, hnone⟩
        exact .entry hmem ((ih entry.2 (List.mem_map_of_mem hmem)).mp hnone)
      · rintro ⟨⟩
        next entry hholds hmem =>
          exact ⟨entry, hmem, (ih entry.2 (List.mem_map_of_mem hmem)).mpr hholds⟩

/-! ## The item of a value and the limits -/

theorem fits_part_iff {depth number : Nat} {present : Bool} {content : Item} :
    (∀ pair ∈ part present number content, pair.1.Fits depth ∧ pair.2.Fits depth) ↔
      (present = true → content.Fits depth) := by
  unfold part
  cases present with
  | false => simp
  | true => simp [Item.Fits.unsigned]

theorem length_part_le (present : Bool) (number : Nat) (content : Item) :
    (part present number content).length ≤ 1 := by
  unfold part
  split
  · exact Nat.le_refl 1
  · exact Nat.zero_le 1

theorem fits_entryItem_iff {depth : Nat} {key : BitSeq} {item : Item} :
    (entryItem key item).Fits depth ↔ depth < Cbor.maxNesting ∧ item.Fits (depth + 1) := by
  rw [entryItem, Item.fits_map_iff]
  simp [Item.Fits.unsigned, Item.Fits.bytes, maxElements]

theorem fits_setItem_iff {depth : Nat} {items : List Item} (h : items.length ≤ maxElements) :
    (setItem items).Fits depth ↔ depth < Cbor.maxNesting ∧
      (items ≠ [] → depth + 1 < Cbor.maxNesting ∧ ∀ item ∈ items, item.Fits (depth + 2)) := by
  have hlength : ((Item.unsigned kindField, Item.unsigned Kind.set.code) ::
      part (!items.isEmpty) entriesField (.array items)).length ≤ maxElements :=
    Nat.le_trans (Nat.succ_le_succ (length_part_le ..)) (by decide)
  have hpresent : (!items.isEmpty) = true ↔ items ≠ [] := by simp
  rw [setItem, Item.fits_map_iff, List.forall_mem_cons, fits_part_iff, Item.fits_array_iff,
    hpresent]
  constructor
  · rintro ⟨hdepth, -, -, hitems⟩
    exact ⟨hdepth, fun hne => ⟨(hitems hne).1, (hitems hne).2.2⟩⟩
  · rintro ⟨hdepth, hitems⟩
    refine ⟨hdepth, hlength, ⟨.unsigned _, .unsigned _⟩, ?_⟩
    intro hne
    exact ⟨(hitems hne).1, h, (hitems hne).2⟩

theorem fits_bitsItem_iff {depth : Nat} {b : BitSeq} {item : Item}
    (h : ofValue? (.bits b) = some item) : item.Fits depth ↔ depth < Cbor.maxNesting := by
  cases h
  rw [Item.fits_map_iff, List.cons_append, List.forall_mem_cons, List.forall_mem_append,
    fits_part_iff, fits_part_iff]
  constructor
  · exact fun h => h.1
  · intro hdepth
    refine ⟨hdepth, ?_, ⟨.unsigned _, .unsigned _⟩, fun _ => .unsigned _, fun _ => .bytes _⟩
    rw [List.length_cons, List.length_append]
    have hlen := length_part_le (b.len != 0) lenField (.unsigned b.len)
    have hdata := length_part_le (!b.bytes.isEmpty) dataField (.bytes b.bytes)
    have hmax : 3 ≤ maxElements := by decide
    omega

theorem fits_nullItem_iff {depth : Nat} :
    (Item.map [(.unsigned kindField, .unsigned Kind.null.code)]).Fits depth ↔
      depth < Cbor.maxNesting := by
  rw [Item.fits_map_iff]
  simp [Item.Fits.unsigned, maxElements]

theorem fits_of_ofEntryList? {entries : List (BitSeq × Value)} {items : List Item}
    (h : ofEntryList? entries = some items) {depth : Nat}
    (hentries : ∀ entry ∈ entries, ∀ item, ofValue? entry.2 = some item →
      (item.Fits (depth + 1) ↔ depth + 1 + entry.2.levels ≤ Cbor.maxNesting)) :
    (∀ item ∈ items, item.Fits depth) ↔
      ∀ entry ∈ entries, depth + 1 + entry.2.levels ≤ Cbor.maxNesting := by
  induction entries generalizing items with
  | nil =>
      cases h
      simp
  | cons entry rest ih =>
      obtain ⟨item, more, hitem, hmore, rfl⟩ := exists_of_ofEntryList?_cons h
      obtain ⟨hentry, hrest⟩ := List.forall_mem_cons.mp hentries
      rw [List.forall_mem_cons, List.forall_mem_cons, ih hmore hrest, fits_entryItem_iff,
        hentry item hitem]
      have hlevels : depth + 1 + entry.2.levels ≤ Cbor.maxNesting → depth < Cbor.maxNesting := by
        omega
      tauto

theorem length_of_ofEntryList? {entries : List (BitSeq × Value)} {items : List Item}
    (h : ofEntryList? entries = some items) : items.length = entries.length := by
  induction entries generalizing items with
  | nil =>
      cases h
      rfl
  | cons entry rest ih =>
      obtain ⟨item, more, hitem, hmore, rfl⟩ := exists_of_ofEntryList?_cons h
      rw [List.length_cons, ih hmore, List.length_cons]

/-- A value takes as many levels as its item. -/
theorem fits_of_ofValue?_iff {v : Value} (hv : v.Moderate) {item : Item}
    (h : ofValue? v = some item) {depth : Nat} :
    item.Fits depth ↔ depth + v.levels ≤ Cbor.maxNesting := by
  induction v using Value.induction generalizing item depth with
  | absent | null =>
      cases h
      exact fits_nullItem_iff
  | bits b => exact fits_bitsItem_iff h
  | function scope pattern body => cases h
  | set s ih =>
      cases hv with
      | set hsize _ hvalues =>
          rw [ofValue?_set] at h
          obtain ⟨items, hitems, rfl⟩ := Option.map_eq_some_iff.mp h
          have hlength := length_of_ofEntryList? hitems
          have hcount : items.length ≤ maxElements := by
            rw [hlength]
            exact hsize
          rw [fits_setItem_iff hcount, Value.levels_set]
          by_cases hnone : s.toList = []
          · have hempty : items = [] := by
              rw [← List.length_eq_zero_iff, hlength, hnone, List.length_nil]
            rw [hnone, hempty, if_pos List.isEmpty_nil]
            constructor
            · rintro ⟨hdepth, -⟩
              exact hdepth
            · intro hdepth
              exact ⟨hdepth, fun hne => absurd rfl hne⟩
          · have hsome : items ≠ [] := by
              intro hempty
              apply hnone
              rw [← List.length_eq_zero_iff, ← hlength, hempty, List.length_nil]
            have hentries := @fits_of_ofEntryList? s.toList items hitems (depth + 2)
              fun entry hmem item hitem => ih entry.2 (List.mem_map_of_mem hmem)
                (hvalues entry hmem) hitem
            rw [hentries, if_neg (by simpa using hnone)]
            constructor
            · rintro ⟨-, hrest⟩
              obtain ⟨-, hall⟩ := hrest hsome
              obtain ⟨first, hfirst⟩ := List.exists_mem_of_ne_nil _ hnone
              have hfits := hall first hfirst
              have hmost : Value.mostLevels s.toList ≤ Cbor.maxNesting - (depth + 3) := by
                apply Value.mostLevels_le_iff.mpr
                intro entry hmem
                have hentry := hall entry hmem
                omega
              omega
            · intro hlevels
              refine ⟨by omega, fun _ => ⟨by omega, fun entry hmem => ?_⟩⟩
              have hentry := Value.mostLevels_le_iff.mp (Nat.le_refl _) entry hmem
              omega

theorem short_part {present : Bool} {number : Nat} (hnumber : number < 0x10000000000000000)
    {content : Item} (h : content.Short) :
    ∀ pair ∈ part present number content, pair.1.Short ∧ pair.2.Short := by
  unfold part
  split
  · exact List.forall_mem_singleton.mpr ⟨.unsigned hnumber, h⟩
  · exact List.forall_mem_nil _

/-- The length and the bytes of a sequence of moderate length have heads. -/
theorem short_of_canonical {b : BitSeq} (hb : b.Canonical) (hlen : b.len ≤ maxBits) :
    (Item.unsigned b.len).Short ∧ (Item.bytes b.bytes).Short := by
  unfold maxBits at hlen
  refine ⟨.unsigned (by omega), .bytes ?_⟩
  rw [hb.1]
  unfold byteCount
  omega

theorem short_of_ofEntryList? {entries : List (BitSeq × Value)} {items : List Item}
    (h : ofEntryList? entries = some items)
    (hkeys : ∀ entry ∈ entries, entry.1.Canonical ∧ entry.1.len ≤ maxBits)
    (hvalues : ∀ entry ∈ entries, ∀ item, ofValue? entry.2 = some item → item.Short) :
    ∀ item ∈ items, item.Short := by
  induction entries generalizing items with
  | nil =>
      cases h
      exact List.forall_mem_nil _
  | cons entry rest ih =>
      obtain ⟨item, more, hitem, hmore, rfl⟩ := exists_of_ofEntryList?_cons h
      obtain ⟨hkey, hkeys⟩ := List.forall_mem_cons.mp hkeys
      obtain ⟨hvalue, hvalues⟩ := List.forall_mem_cons.mp hvalues
      obtain ⟨hlen, hbytes⟩ := short_of_canonical hkey.1 hkey.2
      refine List.forall_mem_cons.mpr ⟨Item.short_map ?_, ih hmore hkeys hvalues⟩
      simp only [List.forall_mem_cons]
      exact ⟨⟨.unsigned (by decide), hlen⟩, ⟨.unsigned (by decide), hbytes⟩,
        ⟨.unsigned (by decide), hvalue item hitem⟩, List.forall_mem_nil _⟩

/-- The numbers and byte strings of a moderate value have heads. -/
theorem short_of_ofValue? {v : Value} (hpacked : v.Packed) (hv : v.Moderate) {item : Item}
    (h : ofValue? v = some item) : item.Short := by
  have hnull : (Item.map [(.unsigned kindField, .unsigned Kind.null.code)]).Short :=
    Item.short_map (List.forall_mem_singleton.mpr ⟨.unsigned (by decide), .unsigned (by decide)⟩)
  induction v using Value.induction generalizing item with
  | absent | null =>
      cases h
      exact hnull
  | bits b =>
      cases h
      cases hpacked with
      | bits hb =>
          cases hv with
          | bits hlen =>
              obtain ⟨hlen, hbytes⟩ := short_of_canonical hb hlen
              refine Item.short_map (List.forall_mem_cons.mpr
                ⟨⟨.unsigned (by decide), .unsigned (by decide)⟩, ?_⟩)
              exact List.forall_mem_append.mpr
                ⟨short_part (by decide) hlen, short_part (by decide) hbytes⟩
  | function scope pattern body => cases h
  | set s ih =>
      rw [ofValue?_set] at h
      obtain ⟨items, hitems, rfl⟩ := Option.map_eq_some_iff.mp h
      cases hpacked with
      | set _ hkeys hpacked =>
          cases hv with
          | set _ hlens hvalues =>
              have hshort := short_of_ofEntryList? hitems
                (fun entry hmem => ⟨hkeys entry hmem, hlens entry hmem⟩)
                (fun entry hmem item hitem => ih entry.2 (List.mem_map_of_mem hmem)
                  (hpacked entry hmem) (hvalues entry hmem) hitem)
              exact Item.short_map (List.forall_mem_cons.mpr
                ⟨⟨.unsigned (by decide), .unsigned (by decide)⟩,
                  short_part (by decide) (.array hshort)⟩)

/-! ## Reading the item of a value -/

theorem readInt_unsigned {n : Nat} (h : n ≤ maxBits) : readInt (.unsigned n) = .ok n := by
  unfold maxBits at h
  change (if -2 ^ 63 ≤ (n : Int) ∧ (n : Int) ≤ 2 ^ 63 - 1 then _ else _) = _
  rw [if_pos (by omega)]

theorem toBits_of_canonical {b : BitSeq} (hb : b.Canonical) (hlen : b.len ≤ maxBits) :
    toBits b.len b.bytes = .ok b := by
  have hfits : ¬((b.len : Int) < 0 ∨ (b.bytes.length : Int) ≠ byteCount64 b.len) := by
    rw [byteCount64_natCast hlen, hb.1]
    simp
  rw [toBits, if_neg hfits, Int.toNat_natCast, hb.ofData_bytes]

theorem readNode_nullItem :
    readNode (.map [(.unsigned kindField, .unsigned Kind.null.code)]) = .ok .zero := by
  rw [readNode, readNodeParts_kind]
  exact readNodeParts_nil [1] .zero

theorem readNodeParts_len {kind n : Nat} (hn : n ≤ maxBits) (rest : List (Item × Item)) :
    ∃ seen, 3 ∉ seen ∧
      readNodeParts [1] (.mk kind 0 [] []) (part (n != 0) lenField (.unsigned n) ++ rest) =
        readNodeParts seen (.mk kind n [] []) rest := by
  by_cases hzero : n = 0
  · refine ⟨[1], by decide, ?_⟩
    rw [hzero]
    rfl
  · refine ⟨[2, 1], by decide, ?_⟩
    have hpresent : (n != 0) = true := by simpa using hzero
    rw [hpresent, part, if_pos rfl, List.singleton_append, readNodeParts]
    change (readInt (.unsigned n) >>= fun len => readNodeParts [2, 1] (.mk kind len [] []) rest) = _
    rw [readInt_unsigned hn]
    rfl

theorem readNode_of_bits {b : BitSeq} (hlen : b.len ≤ maxBits) {item : Item}
    (h : ofValue? (.bits b) = some item) :
    readNode item = .ok (.mk Kind.bits.code b.len b.bytes []) := by
  cases h
  obtain ⟨seen, hseen, hparts⟩ := @readNodeParts_len Kind.bits.code b.len hlen
    (part (!b.bytes.isEmpty) dataField (.bytes b.bytes))
  rw [readNode, List.cons_append, readNodeParts_kind]
  change readNodeParts [1] (.mk Kind.bits.code 0 [] []) _ = _
  rw [hparts, readNodeParts_data hseen]

theorem readNode_setItem {items : List Item} {entries : List (Int × Bytes × Node)}
    (h : readEntryList items = .ok entries) :
    readNode (setItem items) = .ok (.mk Kind.set.code 0 [] entries) := by
  rw [setItem, readNode, readNodeParts_kind]
  change readNodeParts [1] (.mk Kind.set.code 0 [] []) _ = _
  by_cases hempty : items = []
  · rw [hempty, readEntryList] at h
    cases h
    rw [hempty]
    exact readNodeParts_nil [1] _
  · have hpresent : (!items.isEmpty) = true := by simpa using hempty
    rw [hpresent, part, if_pos rfl, readNodeParts]
    change (readEntries (.array items) >>= fun entries =>
      readNodeParts [4, 1] (.mk Kind.set.code 0 [] entries) []) = _
    rw [readEntries, h]
    exact readNodeParts_nil [4, 1] _

theorem readEntry_entryItem {key : BitSeq} (hkey : key.len ≤ maxBits) {item : Item} {node : Node}
    (h : readNode item = .ok node) :
    readEntry (entryItem key item) = .ok (key.len, key.bytes, node) := by
  rw [entryItem, readEntry, readEntryParts]
  change (readInt (.unsigned key.len) >>= fun len => readEntryParts [1] (len, [], .zero) _) = _
  rw [readInt_unsigned hkey]
  change readEntryParts [1] ((key.len : Int), [], .zero) _ = _
  rw [readEntryParts]
  change readEntryParts [2, 1] ((key.len : Int), key.bytes, .zero) _ = _
  rw [readEntryParts]
  change (readNode item >>= fun node =>
    readEntryParts [3, 2, 1] ((key.len : Int), key.bytes, node) []) = _
  rw [h]
  change readEntryParts [3, 2, 1] ((key.len : Int), key.bytes, node) [] = _
  rw [readEntryParts]

/-- The item is read as a node that stands for the value as it comes back. -/
def ComesBack (v : Value) : Prop :=
  ∀ {item : Item}, ofValue? v = some item →
    ∃ node, readNode item = .ok node ∧ toValue node = .ok v.asRead

theorem exists_of_readEntryList {entries : List (BitSeq × Value)} {items : List Item}
    (h : ofEntryList? entries = some items)
    (hkeys : ∀ entry ∈ entries, entry.1.Canonical ∧ entry.1.len ≤ maxBits)
    (hvalues : ∀ entry ∈ entries, ComesBack entry.2) :
    ∃ nodes, readEntryList items = .ok nodes ∧ ∀ done : Scope, toEntries done nodes =
      .ok (done.insertAll (entries.map fun (key, value) => (key, value.asRead))) := by
  induction entries generalizing items with
  | nil =>
      cases h
      exact ⟨[], by rw [readEntryList], fun done => by rw [toEntries]; rfl⟩
  | cons entry rest ih =>
      obtain ⟨item, more, hitem, hmore, rfl⟩ := exists_of_ofEntryList?_cons h
      obtain ⟨hkey, hkeys⟩ := List.forall_mem_cons.mp hkeys
      obtain ⟨hvalue, hvalues⟩ := List.forall_mem_cons.mp hvalues
      obtain ⟨node, hnode, hread⟩ := hvalue hitem
      obtain ⟨nodes, hnodes, hentries⟩ := ih hmore hkeys hvalues
      refine ⟨(entry.1.len, entry.1.bytes, node) :: nodes, ?_, fun done => ?_⟩
      · rw [readEntryList, readEntry_entryItem hkey.2 hnode, hnodes]
        rfl
      · rw [toEntries, toBits_of_canonical hkey.1 hkey.2, hread]
        exact hentries (done.insert entry.1 entry.2.asRead)

/-- A packed value of moderate size comes back. -/
theorem comesBack {v : Value} (hpacked : v.Packed) (hv : v.Moderate) : ComesBack v := by
  induction v using Value.induction with
  | absent | null =>
      intro item h
      cases h
      exact ⟨.zero, readNode_nullItem, rfl⟩
  | bits b =>
      intro item h
      cases hpacked with
      | bits hb =>
          cases hv with
          | bits hlen =>
              refine ⟨_, readNode_of_bits hlen h, ?_⟩
              rw [Kind.code, toValue, toBits_of_canonical hb hlen]
              rfl
  | function scope pattern body =>
      intro item h
      cases h
  | set s ih =>
      intro item h
      rw [ofValue?_set] at h
      obtain ⟨items, hitems, rfl⟩ := Option.map_eq_some_iff.mp h
      cases hpacked with
      | set hnodup hkeys hpacked =>
          cases hv with
          | set _ hlens hvalues =>
              obtain ⟨nodes, hnodes, hentries⟩ := exists_of_readEntryList hitems
                (fun entry hmem => ⟨hkeys entry hmem, hlens entry hmem⟩)
                (fun entry hmem => ih entry.2 (List.mem_map_of_mem hmem) (hpacked entry hmem)
                  (hvalues entry hmem))
              refine ⟨_, readNode_setItem hnodes, ?_⟩
              rw [Kind.code, toValue, hentries, Value.asRead_set_of_nodup hnodup,
                Bindings.toList_map]
              rfl

end Wire

namespace Value

/-- The bytes of a value that nests as deeply as the format allows, or less, are read as the
value as it comes back. -/
theorem unmarshal_of_levels_le {v : Value} (hpacked : v.Packed) (hv : v.Moderate) {bytes : Bytes}
    (hbytes : v.marshal? = some bytes) (hlevels : v.levels ≤ Cbor.maxNesting) :
    unmarshal bytes = .ok v.asRead := by
  obtain ⟨item, hitem, rfl⟩ := Option.map_eq_some_iff.mp hbytes
  have hfits : item.Fits 0 := (fits_of_ofValue?_iff hv hitem).mpr (by omega)
  obtain ⟨node, hnode, hvalue⟩ := comesBack hpacked hv hitem
  rw [unmarshal, (short_of_ofValue? hpacked hv hitem).read?_write_of_fits hfits]
  show readNode item >>= toValue = _
  rw [hnode]
  exact hvalue

/-- The bytes of a value that nests more deeply are not well-formed. -/
theorem unmarshal_of_lt_levels {v : Value} (hv : v.Moderate) {bytes : Bytes}
    (hbytes : v.marshal? = some bytes) (hlevels : Cbor.maxNesting < v.levels) :
    unmarshal bytes = .error .malformed := by
  obtain ⟨item, hitem, rfl⟩ := Option.map_eq_some_iff.mp hbytes
  have hfits : ¬item.Fits 0 := by
    rw [fits_of_ofValue?_iff hv hitem]
    omega
  rw [unmarshal, (plain_of_ofValue? hitem).read?_write_of_not_fits hfits]

/-- A value travels exactly if it holds no function.  Within the limits on entries and lengths
it then comes back if it takes no more levels than are allowed, and otherwise its bytes are
refused; and a value without absent parts comes back as the very same. -/
theorem marshal_comes_back {v : Value} (hpacked : v.Packed) :
    (v.marshal? = none ↔ v.HoldsFunction) ∧
      (∀ bytes, v.marshal? = some bytes → v.Moderate →
        (v.levels ≤ Cbor.maxNesting → unmarshal bytes = .ok v.asRead) ∧
        (Cbor.maxNesting < v.levels → unmarshal bytes = .error .malformed)) ∧
      (v.WellFormed → v.asRead = v) := by
  refine ⟨?_, ?_, asRead_of_wellFormed⟩
  · rw [marshal?, Option.map_eq_none_iff]
    exact ofValue?_eq_none_iff v
  · intro bytes hbytes hv
    exact ⟨unmarshal_of_levels_le hpacked hv hbytes, unmarshal_of_lt_levels hv hbytes⟩

/-- Sets one in another around an absent value, each with the empty key. -/
def nest : Nat → Value
  | 0 => absent
  | n + 1 => set (.ofList [(.empty, nest n)])

theorem toList_ofList_nest (n : Nat) :
    (Bindings.ofList [(BitSeq.empty, nest n)]).toList = [(.empty, nest n)] :=
  Bindings.toList_insertAll_of_nodup Bindings.wellFormed_empty (List.pairwise_singleton ..)

theorem levels_nest (n : Nat) : (nest n).levels = 3 * n + 1 := by
  induction n with
  | zero => rfl
  | succ n ih =>
      rw [nest, levels_set, toList_ofList_nest, mostLevels, mostLevels, ih]
      simp
      omega

theorem packed_nest (n : Nat) : (nest n).Packed := by
  induction n with
  | zero => exact .absent
  | succ n ih =>
      refine .set (Bindings.wellFormed_ofList _).nodup ?_ ?_ <;> rw [toList_ofList_nest]
      · exact List.forall_mem_singleton.mpr (BitSeq.canonical_ofList [])
      · exact List.forall_mem_singleton.mpr ih

theorem moderate_nest (n : Nat) : (nest n).Moderate := by
  induction n with
  | zero => exact .absent
  | succ n ih =>
      have hsize : (Bindings.ofList [(BitSeq.empty, nest n)]).size = 1 :=
        congrArg List.length (toList_ofList_nest n)
      refine .set (by rw [hsize]; decide) ?_ ?_ <;> rw [toList_ofList_nest]
      · exact List.forall_mem_singleton.mpr (Nat.zero_le _)
      · exact List.forall_mem_singleton.mpr ih

theorem not_holdsFunction_nest (n : Nat) : ¬(nest n).HoldsFunction := by
  induction n with
  | zero =>
      intro h
      cases h
  | succ n ih =>
      rintro ⟨⟩
      next entry hholds hmem =>
        rw [toList_ofList_nest, List.mem_singleton] at hmem
        rw [hmem] at hholds
        exact ih hholds

/-- Sets may nest 1365 deep and no deeper. -/
theorem nest_comes_back :
    (∃ bytes, (nest 1365).marshal? = some bytes ∧ unmarshal bytes = .ok (nest 1365).asRead) ∧
      ∃ bytes, (nest 1366).marshal? = some bytes ∧ unmarshal bytes = .error .malformed := by
  have htravels (n : Nat) : ∃ bytes, (nest n).marshal? = some bytes := by
    apply Option.ne_none_iff_exists'.mp
    rw [ne_eq, (marshal_comes_back (packed_nest n)).1]
    exact not_holdsFunction_nest n
  constructor
  · obtain ⟨bytes, hbytes⟩ := htravels 1365
    have hback := (marshal_comes_back (packed_nest 1365)).2.1 bytes hbytes (moderate_nest 1365)
    exact ⟨bytes, hbytes, hback.1 (by rw [levels_nest]; decide)⟩
  · obtain ⟨bytes, hbytes⟩ := htravels 1366
    have hback := (marshal_comes_back (packed_nest 1366)).2.1 bytes hbytes (moderate_nest 1366)
    exact ⟨bytes, hbytes, hback.2 (by rw [levels_nest]; decide)⟩

end Value

end BitLang
