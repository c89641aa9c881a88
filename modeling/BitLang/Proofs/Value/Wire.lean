/-
# Values are not misread from the wire

Reading the bytes that a well-formed value travels as either fails or gives the value
back.  It fails where a limit of the format is exceeded, and the statement leaves open
when that is.

A value that travels holds no function, so there are no spans in it.
-/

import BitLang.Proofs.Cbor.Item
import BitLang.Proofs.Value.Spans
import BitLang.Proofs.Value.WellFormed
import BitLang.Value.Wire

namespace BitLang

open Cbor Wire

namespace Wire

/-! ## The items of values -/

/-- The item that an entry travels as, given the item of its value. -/
def entryItem (key : BitSeq) (item : Item) : Item :=
  .map [(.unsigned keyLenField, .unsigned key.len), (.unsigned keyField, .bytes key.bytes),
    (.unsigned valueField, item)]

/-- The item that a set travels as, given the items of its entries. -/
def setItem (items : List Item) : Item :=
  .map ((.unsigned kindField, .unsigned Kind.set.code)
    :: part (!items.isEmpty) entriesField (.array items))

theorem ofValue?_set (s : Scope) : ofValue? (.set s) = (ofEntryList? s.toList).map setItem := by
  rcases s with ⟨⟨entries⟩, index⟩
  rw [ofValue?, ofEntries?]
  cases h : ofEntryList? entries <;> simp [Bindings.toList, h, setItem]

theorem ofEntryList?_cons (key : BitSeq) (value : Value) (rest : List (BitSeq × Value)) :
    ofEntryList? ((key, value) :: rest) =
      (ofValue? value).bind fun item => (ofEntryList? rest).map (entryItem key item :: ·) := by
  rw [ofEntryList?]
  cases ofValue? value with
  | none => rfl
  | some item => cases ofEntryList? rest <;> rfl

/-- What the items of a nonempty list of entries are made of. -/
theorem exists_of_ofEntryList?_cons {key : BitSeq} {value : Value}
    {rest : List (BitSeq × Value)} {items : List Item}
    (h : ofEntryList? ((key, value) :: rest) = some items) :
    ∃ item more, ofValue? value = some item ∧ ofEntryList? rest = some more ∧
      items = entryItem key item :: more := by
  rw [ofEntryList?_cons] at h
  obtain ⟨item, hitem, h⟩ := Option.bind_eq_some_iff.mp h
  obtain ⟨more, hmore, h⟩ := Option.map_eq_some_iff.mp h
  exact ⟨item, more, hitem, hmore, h.symm⟩

theorem plain_part {present : Bool} {number : Nat} {content : Item} (h : content.Plain) :
    ∀ pair ∈ part present number content, pair.1.Plain ∧ pair.2.Plain := by
  unfold part
  split
  · exact List.forall_mem_singleton.mpr ⟨.unsigned number, h⟩
  · exact fun _ hmem => nomatch hmem

theorem plain_entryItem {key : BitSeq} {item : Item} (h : item.Plain) :
    (entryItem key item).Plain := by
  apply Item.plain_map
  simp only [List.forall_mem_cons]
  exact ⟨⟨.unsigned _, .unsigned _⟩, ⟨.unsigned _, .bytes _⟩, ⟨.unsigned _, h⟩,
    fun _ hmem => nomatch hmem⟩

theorem plain_of_ofEntryList? {entries : List (BitSeq × Value)}
    (hentries : ∀ entry ∈ entries, ∀ item, ofValue? entry.2 = some item → item.Plain)
    {items : List Item} (h : ofEntryList? entries = some items) : ∀ item ∈ items, item.Plain := by
  induction entries generalizing items with
  | nil =>
      cases h
      exact fun _ hmem => nomatch hmem
  | cons entry rest ih =>
      obtain ⟨hentry, hrest⟩ := List.forall_mem_cons.mp hentries
      obtain ⟨item, more, hitem, hmore, rfl⟩ := exists_of_ofEntryList?_cons h
      exact List.forall_mem_cons.mpr ⟨plain_entryItem (hentry item hitem), ih hrest hmore⟩

/-- Values travel as plain items. -/
theorem plain_of_ofValue? {v : Value} {item : Item} (h : ofValue? v = some item) :
    item.Plain := by
  have hnull : (Item.map [(.unsigned kindField, .unsigned Kind.null.code)]).Plain :=
    Item.plain_map (List.forall_mem_singleton.mpr ⟨.unsigned _, .unsigned _⟩)
  induction v using Value.induction generalizing item with
  | absent =>
      cases h
      exact hnull
  | null =>
      cases h
      exact hnull
  | bits b =>
      cases h
      refine Item.plain_map (List.forall_mem_cons.mpr ⟨⟨.unsigned _, .unsigned _⟩, ?_⟩)
      exact List.forall_mem_append.mpr ⟨plain_part (.unsigned _), plain_part (.bytes _)⟩
  | set s ih =>
      rw [ofValue?_set] at h
      obtain ⟨items, hitems, rfl⟩ := Option.map_eq_some_iff.mp h
      have hplain := plain_of_ofEntryList? (fun entry hmem item hitem =>
        ih entry.2 (List.mem_map_of_mem hmem) hitem) hitems
      exact Item.plain_map
        (List.forall_mem_cons.mpr ⟨⟨.unsigned _, .unsigned _⟩, plain_part (.array hplain)⟩)
  | function scope pattern body => cases h

/-! ## Reading the parts -/

theorem eq_of_readInt {n : Nat} {m : Int} (h : readInt (.unsigned n) = .ok m) : m = n := by
  change (if -2 ^ 63 ≤ (n : Int) ∧ (n : Int) ≤ 2 ^ 63 - 1 then _ else _) = _ at h
  split at h
  · cases h
    rfl
  · cases h

/-- The bits of a stated length are those of the canonical sequence they were taken
from. -/
theorem eq_of_toBits {b b' : BitSeq} (hb : b.Canonical) (h : toBits b.len b.bytes = .ok b') :
    b' = b := by
  unfold toBits at h
  split at h
  · cases h
  · cases h
    exact hb.ofData_bytes

theorem readNodeParts_nil (seen : List Int) (node : Node) :
    readNodeParts seen node [] = .ok node := by
  cases node
  rw [readNodeParts]

theorem readNodeParts_kind (n : Nat) (rest : List (Item × Item)) :
    readNodeParts [] .zero ((.unsigned kindField, .unsigned n) :: rest) =
      readByte (.unsigned n) >>= fun kind => readNodeParts [1] (.mk kind 0 [] []) rest := by
  rw [Node.zero, readNodeParts]
  rfl

/-- A length that was left out reads like the zero it would have been. -/
theorem exists_of_readNodeParts_len {kind n : Nat} {rest : List (Item × Item)} {node : Node}
    (h : readNodeParts [1] (.mk kind 0 [] []) (part (n != 0) lenField (.unsigned n) ++ rest) =
      .ok node) :
    ∃ seen, 3 ∉ seen ∧ readNodeParts seen (.mk kind n [] []) rest = .ok node := by
  unfold part at h
  split at h
  · rw [List.singleton_append, readNodeParts] at h
    change (readInt (.unsigned n) >>= fun len => readNodeParts [2, 1] (.mk kind len [] []) rest) =
      .ok node at h
    obtain ⟨len, hlen, h⟩ := exists_of_bind_eq_ok h
    rw [eq_of_readInt hlen] at h
    exact ⟨[2, 1], by decide, h⟩
  · next hzero =>
      have hn : n = 0 := by simpa using hzero
      rw [hn]
      exact ⟨[1], by decide, h⟩

/-- Bytes that were left out read like the empty string they would have been. -/
theorem readNodeParts_data {seen : List Int} (hseen : 3 ∉ seen) (kind : Nat) (len : Int)
    (content : Bytes) :
    readNodeParts seen (.mk kind len [] [])
      (part (!content.isEmpty) dataField (.bytes content)) = .ok (.mk kind len content []) := by
  unfold part
  split
  · have hfield : signed64 dataField = 3 := by decide
    have hread : readBytes (.bytes content) = .ok content := rfl
    rw [readNodeParts]
    simp [fieldOf, hfield, hseen, hread, bind, Except.bind, readNodeParts_nil]
  · next hempty =>
      have hcontent : content = [] := by simpa using hempty
      rw [hcontent, readNodeParts_nil]

theorem eq_of_readNode_bits {b : BitSeq} {item : Item} {node : Node}
    (hitem : ofValue? (.bits b) = some item) (h : readNode item = .ok node) :
    node = .mk Kind.bits.code b.len b.bytes [] := by
  cases hitem
  rw [readNode, List.cons_append, readNodeParts_kind] at h
  obtain ⟨kind, hkind, h⟩ := exists_of_bind_eq_ok h
  cases hkind
  obtain ⟨seen, hseen, h⟩ := exists_of_readNodeParts_len h
  rw [readNodeParts_data hseen] at h
  cases h
  rfl

theorem exists_of_readNode_set {items : List Item} {node : Node}
    (h : readNode (setItem items) = .ok node) :
    ∃ entries, readEntryList items = .ok entries ∧ node = .mk Kind.set.code 0 [] entries := by
  rw [setItem, readNode, readNodeParts_kind] at h
  obtain ⟨kind, hkind, h⟩ := exists_of_bind_eq_ok h
  cases hkind
  unfold part at h
  split at h
  · rw [readNodeParts] at h
    change (readEntries (.array items) >>= fun entries =>
      readNodeParts [4, 1] (.mk 2 0 [] entries) []) = .ok node at h
    obtain ⟨entries, hentries, h⟩ := exists_of_bind_eq_ok h
    rw [readNodeParts_nil] at h
    rw [readEntries] at hentries
    exact ⟨entries, hentries, (Except.ok.inj h).symm⟩
  · next hempty =>
      have hitems : items = [] := by simpa using hempty
      rw [readNodeParts_nil] at h
      rw [hitems, readEntryList]
      exact ⟨[], rfl, (Except.ok.inj h).symm⟩

/-- What is read of an entry: its key and what is read of its value. -/
theorem exists_of_readEntry {key : BitSeq} {item : Item} {entry : Int × Bytes × Node}
    (h : readEntry (entryItem key item) = .ok entry) :
    ∃ node, readNode item = .ok node ∧ entry = ((key.len : Int), key.bytes, node) := by
  rw [entryItem, readEntry, readEntryParts] at h
  change (readInt (.unsigned key.len) >>= fun len => readEntryParts [1] (len, [], .zero) _) =
    .ok entry at h
  obtain ⟨len, hlen, h⟩ := exists_of_bind_eq_ok h
  rw [eq_of_readInt hlen, readEntryParts] at h
  change readEntryParts [2, 1] ((key.len : Int), key.bytes, .zero) _ = .ok entry at h
  rw [readEntryParts] at h
  change (readNode item >>= fun node =>
    readEntryParts [3, 2, 1] ((key.len : Int), key.bytes, node) []) = .ok entry at h
  obtain ⟨node, hnode, h⟩ := exists_of_bind_eq_ok h
  rw [readEntryParts] at h
  exact ⟨node, hnode, (Except.ok.inj h).symm⟩

/-! ## Reading values -/

/-- What is read of the item that the value travels as is the value, if it can be read. -/
def Rereads (v : Value) : Prop :=
  ∀ {item : Item} {node : Node} {v' : Value}, ofValue? v = some item → readNode item = .ok node →
    toValue node = .ok v' → v' = v

theorem eq_insertAll_of_toEntries {entries : List (BitSeq × Value)}
    (hentries : ∀ entry ∈ entries, entry.1.Canonical ∧ Rereads entry.2) {items : List Item}
    (hitems : ofEntryList? entries = some items) {nodes : List (Int × Bytes × Node)}
    (hnodes : readEntryList items = .ok nodes) {done result : Scope}
    (h : toEntries done nodes = .ok result) : result = done.insertAll entries := by
  induction entries generalizing items nodes done with
  | nil =>
      cases hitems
      rw [readEntryList] at hnodes
      cases hnodes
      rw [toEntries] at h
      exact (Except.ok.inj h).symm
  | cons entry rest ih =>
      obtain ⟨hentry, hrest⟩ := List.forall_mem_cons.mp hentries
      obtain ⟨item, more, hitem, hmore, rfl⟩ := exists_of_ofEntryList?_cons hitems
      rw [readEntryList] at hnodes
      obtain ⟨first, hfirst, hnodes⟩ := exists_of_bind_eq_ok hnodes
      obtain ⟨others, hothers, hnodes⟩ := exists_of_bind_eq_ok hnodes
      obtain ⟨node, hnode, rfl⟩ := exists_of_readEntry hfirst
      cases hnodes
      rw [toEntries] at h
      obtain ⟨key, hkey, h⟩ := exists_of_bind_eq_ok h
      obtain ⟨value, hvalue, h⟩ := exists_of_bind_eq_ok h
      obtain rfl := eq_of_toBits hentry.1 hkey
      obtain rfl := hentry.2 hitem hnode hvalue
      exact ih hrest hmore hothers h

/-- Well-formed values are not misread. -/
theorem rereads_of_wellFormed {v : Value} (h : v.WellFormed) : Rereads v := by
  induction v using Value.induction with
  | absent => cases h
  | function scope pattern body => exact fun hitem => nomatch hitem
  | null =>
      intro item node v' hitem hnode hvalue
      cases hitem
      rw [readNode, readNodeParts_kind] at hnode
      obtain ⟨kind, hkind, hnode⟩ := exists_of_bind_eq_ok hnode
      cases hkind
      rw [readNodeParts_nil] at hnode
      cases hnode
      change .ok .null = Except.ok v' at hvalue
      exact (Except.ok.inj hvalue).symm
  | bits b =>
      intro item node v' hitem hnode hvalue
      rw [eq_of_readNode_bits hitem hnode, Kind.code, toValue] at hvalue
      cases hbits : toBits b.len b.bytes with
      | error error =>
          rw [hbits] at hvalue
          cases hvalue
      | ok b' =>
          rw [hbits] at hvalue
          cases hvalue
          rw [eq_of_toBits (Value.madeOf_bits_iff.mp h) hbits]
  | set s ih =>
      intro item node v' hitem hnode hvalue
      have hs := Value.madeOf_set_iff.mp h
      rw [ofValue?_set] at hitem
      obtain ⟨items, hitems, rfl⟩ := Option.map_eq_some_iff.mp hitem
      obtain ⟨entries, hentries, rfl⟩ := exists_of_readNode_set hnode
      rw [Kind.code, toValue] at hvalue
      cases hresult : toEntries .empty entries with
      | error error =>
          rw [hresult] at hvalue
          cases hvalue
      | ok result =>
          rw [hresult] at hvalue
          cases hvalue
          have hread : ∀ entry ∈ s.toList, entry.1.Canonical ∧ Rereads entry.2 := by
            intro entry hmem
            have hentry := hs.entries entry hmem
            exact ⟨hentry.1, ih entry.2 (List.mem_map_of_mem hmem) hentry.2⟩
          rw [eq_insertAll_of_toEntries hread hitems hentries hresult]
          exact congrArg Value.set hs.wellFormed.ofList_toList

/-! ## Values without functions -/

theorem ofEntryList?_eraseSpans {entries : List (BitSeq × Value)}
    (hentries : ∀ entry ∈ entries, ofValue? entry.2.eraseSpans = ofValue? entry.2) :
    ofEntryList? (entries.map fun (key, value) => (key, value.eraseSpans)) =
      ofEntryList? entries := by
  induction entries with
  | nil => rfl
  | cons entry rest ih =>
      rcases entry with ⟨key, value⟩
      obtain ⟨hentry, hrest⟩ := List.forall_mem_cons.mp hentries
      rw [List.map_cons, ofEntryList?_cons, ofEntryList?_cons, hentry, ih hrest]

/-- Spans do not travel. -/
theorem ofValue?_eraseSpans (v : Value) : ofValue? v.eraseSpans = ofValue? v := by
  induction v using Value.induction with
  | absent | null | bits => rfl
  | function scope pattern body =>
      rw [Value.eraseSpans_function]
      rfl
  | set s ih =>
      rw [Value.eraseSpans_set, ofValue?_set, ofValue?_set, Bindings.eraseSpans,
        Bindings.toList_map, ofEntryList?_eraseSpans]
      exact fun entry hmem => ih entry.2 (List.mem_map_of_mem hmem)

theorem map_eraseSpans_of_ofEntryList? {entries : List (BitSeq × Value)}
    (hentries : ∀ entry ∈ entries, ∀ item, ofValue? entry.2 = some item →
      entry.2.eraseSpans = entry.2) {items : List Item} (h : ofEntryList? entries = some items) :
    (entries.map fun (key, value) => (key, value.eraseSpans)) = entries := by
  induction entries generalizing items with
  | nil => rfl
  | cons entry rest ih =>
      obtain ⟨hentry, hrest⟩ := List.forall_mem_cons.mp hentries
      obtain ⟨item, more, hitem, hmore, -⟩ := exists_of_ofEntryList?_cons h
      rw [List.map_cons, ih hrest hmore]
      exact congrArg (fun value => (entry.1, value) :: rest) (hentry item hitem)

/-- A value that travels has no spans to erase. -/
theorem eraseSpans_of_ofValue? {v : Value} {item : Item} (h : ofValue? v = some item) :
    v.eraseSpans = v := by
  induction v using Value.induction generalizing item with
  | absent | null | bits => rfl
  | function scope pattern body => cases h
  | set s ih =>
      rw [ofValue?_set] at h
      obtain ⟨items, hitems, -⟩ := Option.map_eq_some_iff.mp h
      have hentries := map_eraseSpans_of_ofEntryList?
        (fun entry hmem item hitem => ih entry.2 (List.mem_map_of_mem hmem) hitem) hitems
      rw [Value.eraseSpans_set]
      rcases s with ⟨⟨entries⟩, index⟩
      simp only [Bindings.toList] at hentries
      simp only [Bindings.eraseSpans, Bindings.map, List.map_toArray, hentries]

end Wire

namespace Value

/-- The bytes of a well-formed value are read as that value, if they can be read. -/
theorem eq_of_unmarshal_marshal {v v' : Value} {bytes : Bytes} (hv : v.WellFormed)
    (hbytes : v.marshal? = some bytes) (h : unmarshal bytes = .ok v') : v' = v := by
  obtain ⟨item, hitem, rfl⟩ := Option.map_eq_some_iff.mp hbytes
  unfold unmarshal at h
  split at h
  · cases h
  · next item' hread =>
      obtain rfl := Item.eq_of_read?_write (plain_of_ofValue? hitem) hread
      obtain ⟨node, hnode, hvalue⟩ := exists_of_bind_eq_ok h
      exact rereads_of_wellFormed hv hitem hnode hvalue

/-- A value that can be stored is determined by what it is up to spans. -/
theorem eq_of_eraseSpans_eq {v v' : Value} {bytes : Bytes} (hbytes : v.marshal? = some bytes)
    (h : v'.eraseSpans = v.eraseSpans) : v' = v := by
  obtain ⟨item, hitem, -⟩ := Option.map_eq_some_iff.mp hbytes
  have hitem' : ofValue? v' = some item := by
    rw [← ofValue?_eraseSpans, h, ofValue?_eraseSpans, hitem]
  rw [← eraseSpans_of_ofValue? hitem, ← h, eraseSpans_of_ofValue? hitem']

end Value

end BitLang
