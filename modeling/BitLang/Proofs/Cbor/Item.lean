/-
# Data items are not misread

Reading the encoding of an item either fails, for want of fuel or because a limit is
exceeded, or gives the item back and leaves exactly what follows it.  This is shown for
the items that values travel as: numbers, byte strings, arrays and maps.
-/

import BitLang.Cbor.Item
import BitLang.Proofs.Text.Bytes

namespace BitLang.Cbor

/-! ## Heads -/

/-- The first byte of a head tells its major type and its additional information. -/
theorem toNat_firstByte {major info : Nat} (hmajor : major < 8) (hinfo : info < 32) :
    (UInt8.ofNat (32 * major + info)).toNat / 32 = major ∧
      (UInt8.ofNat (32 * major + info)).toNat % 32 = info := by
  rw [UInt8.toNat_ofNat']
  omega

theorem readHead?_short {major argument : Nat} (hmajor : major < 7) (hargument : argument < 24)
    (rest : Bytes) :
    readHead? (UInt8.ofNat (32 * major + argument) :: rest) =
      some (⟨major, argument, argument⟩, rest) := by
  obtain ⟨hdiv, hmod⟩ := @toNat_firstByte major argument (by omega) (by omega)
  simp only [readHead?, hdiv, hmod, hargument, if_true]

theorem readHead?_long {major info width argument : Nat} (hmajor : major < 7)
    (hinfo : 24 ≤ info ∧ info < 32) (hwidth : argumentWidth? info = some width)
    (hargument : argument < 256 ^ width) (rest : Bytes) :
    readHead? (UInt8.ofNat (32 * major + info) :: (bigEndian width argument ++ rest)) =
      some (⟨major, info, argument⟩, rest) := by
  obtain ⟨hdiv, hmod⟩ := @toNat_firstByte major info (by omega) hinfo.2
  have htake : takeExactly? width (bigEndian width argument ++ rest) =
      some (bigEndian width argument, rest) := by
    have h := takeExactly?_append (bigEndian width argument) rest
    rwa [length_bigEndian] at h
  have hseven : ¬(major = 7 ∧ info = 24 ∧ argument < 32) := by omega
  simp only [readHead?, hdiv, hmod, if_neg (Nat.not_lt.mpr hinfo.1), hwidth, htake,
    Option.bind_eq_bind, Option.bind_some, ofBigEndian_bigEndian hargument, if_neg hseven]

/-- A head whose argument fits eight bytes is read as it was written. -/
theorem readHead?_writeHead {major argument : Nat} (hmajor : major < 7)
    (hargument : argument < 0x10000000000000000) (rest : Bytes) :
    ∃ info < Head.unstated,
      readHead? (writeHead major argument ++ rest) = some (⟨major, info, argument⟩, rest) := by
  unfold writeHead
  simp only [hargument, if_true]
  split
  · next h => exact ⟨argument, Nat.lt_trans h (by decide), readHead?_short hmajor h rest⟩
  · split
    · next h => exact ⟨24, by decide, readHead?_long hmajor (by decide) rfl h rest⟩
    · split
      · next h => exact ⟨25, by decide, readHead?_long hmajor (by decide) rfl h rest⟩
      · split
        · next h => exact ⟨26, by decide, readHead?_long hmajor (by decide) rfl h rest⟩
        · exact ⟨27, by decide, readHead?_long hmajor (by decide) rfl hargument rest⟩

/-- The head of an argument that does not fit is not read at all. -/
theorem readHead?_writeHead_of_le {major argument : Nat} (hmajor : major < 7)
    (hargument : 0x10000000000000000 ≤ argument) (rest : Bytes) :
    readHead? (writeHead major argument ++ rest) = none := by
  have hhead : writeHead major argument = [UInt8.ofNat (32 * major + 28)] := by
    unfold writeHead
    simp only
    repeat rw [if_neg (by omega)]
  obtain ⟨-, hmod⟩ := @toNat_firstByte major 28 (by omega) (by decide)
  rw [hhead]
  simp only [List.singleton_append, readHead?, hmod]
  rfl

/-- A head is read as it was written, if it can be read. -/
theorem eq_of_readHead?_writeHead {major argument : Nat} (hmajor : major < 7) {rest rest' : Bytes}
    {head : Head} (h : readHead? (writeHead major argument ++ rest) = some (head, rest')) :
    head.major = major ∧ head.argument = argument ∧ head.info ≠ Head.unstated ∧ rest' = rest := by
  by_cases hargument : argument < 0x10000000000000000
  · obtain ⟨info, hinfo, hread⟩ := readHead?_writeHead hmajor hargument rest
    obtain ⟨rfl, rfl⟩ := Prod.mk.inj (Option.some.inj (h.symm.trans hread))
    exact ⟨rfl, rfl, Nat.ne_of_lt hinfo, rfl⟩
  · rw [readHead?_writeHead_of_le hmajor (Nat.not_lt.mp hargument)] at h
    cases h

/-! ## Items -/

/-- The items that values travel as. -/
inductive Item.Plain : Item → Prop
  | unsigned (n : Nat) : Plain (.unsigned n)
  | bytes (content : Bytes) : Plain (.bytes content)
  | array {items : List Item} : (∀ item ∈ items, Plain item) → Plain (.array items)
  | map {pairs : List (Item × Item)} : (∀ pair ∈ pairs, Plain pair.1) →
      (∀ pair ∈ pairs, Plain pair.2) → Plain (.map pairs)

theorem Item.plain_map {pairs : List (Item × Item)}
    (h : ∀ pair ∈ pairs, pair.1.Plain ∧ pair.2.Plain) : (Item.map pairs).Plain :=
  .map (fun pair hmem => (h pair hmem).1) (fun pair hmem => (h pair hmem).2)

/-- The keys and values of a map in the order they are written in. -/
def elementsOf (pairs : List (Item × Item)) : List Item :=
  pairs.flatMap fun (key, value) => [key, value]

theorem writePairs_eq_writeItems (pairs : List (Item × Item)) (rest : Bytes) :
    Item.writePairs pairs rest = Item.writeItems (elementsOf pairs) rest := by
  induction pairs with
  | nil => rfl
  | cons pair more ih =>
      rcases pair with ⟨key, value⟩
      rw [Item.writePairs, ih]
      rfl

theorem pairUp_elementsOf (pairs : List (Item × Item)) :
    pairUp (elementsOf pairs) = some pairs := by
  induction pairs with
  | nil => rfl
  | cons pair more ih =>
      show (pairUp (elementsOf more)).map (pair :: ·) = _
      rw [ih]
      rfl

theorem length_elementsOf (pairs : List (Item × Item)) :
    (elementsOf pairs).length = 2 * pairs.length := by
  induction pairs with
  | nil => rfl
  | cons pair more ih =>
      show (elementsOf more).length + 2 = 2 * (more.length + 1)
      rw [ih]
      omega

theorem plain_of_mem_elementsOf {pairs : List (Item × Item)}
    (hkeys : ∀ pair ∈ pairs, pair.1.Plain) (hvalues : ∀ pair ∈ pairs, pair.2.Plain) :
    ∀ item ∈ elementsOf pairs, item.Plain := by
  intro item hmem
  obtain ⟨pair, hpair, hitem⟩ := List.mem_flatMap.mp hmem
  rcases List.mem_cons.mp hitem with rfl | hitem
  · exact hkeys pair hpair
  · rw [List.mem_singleton.mp hitem]
    exact hvalues pair hpair

/-- With a certain amount of fuel, plain items and lists of them are not misread. -/
structure Faithful (fuel : Nat) : Prop where
  item : ∀ {depth : Nat} {item item' : Item} {rest rest' : Bytes}, item.Plain →
    readItem? fuel depth (item.writeOnto rest) = some (item', rest') →
    item' = item ∧ rest' = rest
  elements : ∀ {depth : Nat} {head : Head} {group : Nat} {done : Array Item}
    {items items' : List Item} {rest rest' : Bytes}, (∀ item ∈ items, item.Plain) →
    head.info ≠ Head.unstated → group * head.argument = done.size + items.length →
    readElements? fuel depth head group done (Item.writeItems items rest) = some (items', rest') →
    items' = done.toList ++ items ∧ rest' = rest

theorem Faithful.item_succ {fuel : Nat} (ih : Faithful fuel) {depth : Nat} {item item' : Item}
    {rest rest' : Bytes} (hplain : item.Plain)
    (hread : readItem? (fuel + 1) depth (item.writeOnto rest) = some (item', rest')) :
    item' = item ∧ rest' = rest := by
  rw [readItem?] at hread
  obtain ⟨⟨head, after⟩, hhead, h⟩ := Option.bind_eq_some_iff.mp hread
  clear hread
  cases hplain with
  | unsigned n =>
      obtain ⟨hmajor, hargument, -, rfl⟩ := eq_of_readHead?_writeHead (by decide) hhead
      simp only [hmajor, hargument, Option.some.injEq, Prod.mk.injEq] at h
      exact ⟨h.1.symm, h.2.symm⟩
  | bytes content =>
      obtain ⟨hmajor, hargument, hinfo, rfl⟩ := eq_of_readHead?_writeHead (by decide) hhead
      simp only [hmajor, hargument, if_neg hinfo, takeExactly?_append, Option.bind_eq_bind,
        Option.bind_some, Option.some.injEq, Prod.mk.injEq] at h
      exact ⟨h.1.symm, h.2.symm⟩
  | @array items hitems =>
      obtain ⟨hmajor, hargument, hinfo, rfl⟩ := eq_of_readHead?_writeHead (by decide) hhead
      simp only [hmajor] at h
      obtain ⟨⟨items', last⟩, hitems', hrest⟩ := Option.bind_eq_some_iff.mp h
      clear h
      obtain ⟨rfl, rfl⟩ := ih.elements hitems hinfo (by simp [hargument]) hitems'
      simp only [Option.some.injEq, Prod.mk.injEq] at hrest
      exact ⟨hrest.1.symm, hrest.2.symm⟩
  | @map pairs hkeys hvalues =>
      obtain ⟨hmajor, hargument, hinfo, rfl⟩ := eq_of_readHead?_writeHead (by decide) hhead
      simp only [hmajor] at h
      obtain ⟨⟨items', last⟩, hitems', hrest⟩ := Option.bind_eq_some_iff.mp h
      clear h
      rw [writePairs_eq_writeItems] at hitems'
      have hcount : 2 * head.argument = (#[] : Array Item).size + (elementsOf pairs).length := by
        rw [hargument, length_elementsOf]
        exact (Nat.zero_add _).symm
      obtain ⟨rfl, rfl⟩ :=
        ih.elements (plain_of_mem_elementsOf hkeys hvalues) hinfo hcount hitems'
      simp only [List.nil_append, pairUp_elementsOf, Option.bind_eq_bind, Option.bind_some,
        Option.some.injEq, Prod.mk.injEq] at hrest
      exact ⟨hrest.1.symm, hrest.2.symm⟩

theorem Faithful.elements_succ {fuel : Nat} (ih : Faithful fuel) {depth : Nat} {head : Head}
    {group : Nat} {done : Array Item} {items items' : List Item} {rest rest' : Bytes}
    (hplain : ∀ item ∈ items, item.Plain) (hinfo : head.info ≠ Head.unstated)
    (hcount : group * head.argument = done.size + items.length)
    (h : readElements? (fuel + 1) depth head group done (Item.writeItems items rest) =
      some (items', rest')) : items' = done.toList ++ items ∧ rest' = rest := by
  unfold readElements? at h
  rw [if_neg hinfo] at h
  split at h
  · cases h
  · split at h
    · cases h
    · cases items with
      | nil =>
          rw [if_pos (by simp [hcount])] at h
          obtain ⟨rfl, rfl⟩ := Prod.mk.inj (Option.some.inj h)
          exact ⟨(List.append_nil _).symm, rfl⟩
      | cons item more =>
          rw [if_neg (by simp [hcount])] at h
          obtain ⟨⟨first, after⟩, hfirst, h⟩ := Option.bind_eq_some_iff.mp h
          obtain ⟨hitem, hmore⟩ := List.forall_mem_cons.mp hplain
          obtain ⟨rfl, rfl⟩ := ih.item hitem hfirst
          have hcount' : group * head.argument = (done.push first).size + more.length := by
            rw [hcount, Array.size_push, List.length_cons]
            omega
          obtain ⟨rfl, rfl⟩ := ih.elements hmore hinfo hcount' h
          exact ⟨by simp, rfl⟩

theorem faithful (fuel : Nat) : Faithful fuel := by
  induction fuel with
  | zero =>
      refine ⟨fun _ h => ?_, fun _ _ _ h => ?_⟩
      · rw [readItem?] at h
        cases h
      · rw [readElements?] at h
        cases h
  | succ fuel ih => exact ⟨ih.item_succ, ih.elements_succ⟩

/-- The encoding of a plain item is read as that item, if it can be read. -/
theorem Item.eq_of_read?_write {item item' : Item} (hplain : item.Plain)
    (h : Item.read? item.write = some item') : item' = item := by
  unfold Item.read? at h
  split at h
  · next hread =>
      cases h
      exact ((faithful _).item hplain hread).1
  · cases h

end BitLang.Cbor
