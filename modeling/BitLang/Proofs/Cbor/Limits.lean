/-
# Data items and the limits of reading

What is read keeps to the limits on nesting and on the number of elements.  Conversely an
item that keeps to them is read back from its encoding, so for the items that values travel
as the limits are the only reason why reading fails.

Only arrays and maps are counted as levels here.  Tags count too while reading, but an item
with tags that can be read fits all the better without them.
-/

import BitLang.Proofs.Cbor.Item

namespace BitLang.Cbor

namespace Item

/-! ## Items within the limits -/

/-- The item keeps to the limits where it stands inside `depth` arrays and maps. -/
inductive Fits : Nat → Item → Prop
  | unsigned {depth : Nat} (n : Nat) : Fits depth (.unsigned n)
  | negative {depth : Nat} (n : Nat) : Fits depth (.negative n)
  | bytes {depth : Nat} (content : Bytes) : Fits depth (.bytes content)
  | text {depth : Nat} (chunks : List Bytes) : Fits depth (.text chunks)
  | simple {depth : Nat} (value : Nat) : Fits depth (.simple value)
  | float {depth : Nat} (width bits : Nat) : Fits depth (.float width bits)
  | tag {depth : Nat} (number : Nat) {content : Item} : Fits depth content →
      Fits depth (.tag number content)
  | array {depth : Nat} {items : List Item} : depth < maxNesting → items.length ≤ maxElements →
      (∀ item ∈ items, Fits (depth + 1) item) → Fits depth (.array items)
  | map {depth : Nat} {pairs : List (Item × Item)} : depth < maxNesting →
      pairs.length ≤ maxElements → (∀ pair ∈ pairs, Fits (depth + 1) pair.1) →
      (∀ pair ∈ pairs, Fits (depth + 1) pair.2) → Fits depth (.map pairs)

theorem fits_array_iff {depth : Nat} {items : List Item} :
    (array items).Fits depth ↔
      depth < maxNesting ∧ items.length ≤ maxElements ∧ ∀ item ∈ items, item.Fits (depth + 1) := by
  constructor
  · rintro ⟨⟩
    next hdepth hlength hitems => exact ⟨hdepth, hlength, hitems⟩
  · rintro ⟨hdepth, hlength, hitems⟩
    exact .array hdepth hlength hitems

theorem fits_map_iff {depth : Nat} {pairs : List (Item × Item)} :
    (map pairs).Fits depth ↔ depth < maxNesting ∧ pairs.length ≤ maxElements ∧
      ∀ pair ∈ pairs, pair.1.Fits (depth + 1) ∧ pair.2.Fits (depth + 1) := by
  constructor
  · rintro ⟨⟩
    next hdepth hlength hkeys hvalues =>
      exact ⟨hdepth, hlength, fun pair hmem => ⟨hkeys pair hmem, hvalues pair hmem⟩⟩
  · rintro ⟨hdepth, hlength, hpairs⟩
    exact .map hdepth hlength (fun pair hmem => (hpairs pair hmem).1)
      (fun pair hmem => (hpairs pair hmem).2)

/-- An item that fits fits all the better further out. -/
theorem Fits.of_le {depth outer : Nat} {item : Item} (h : item.Fits depth) (hle : outer ≤ depth) :
    item.Fits outer := by
  induction h generalizing outer with
  | unsigned n => exact .unsigned n
  | negative n => exact .negative n
  | bytes content => exact .bytes content
  | text chunks => exact .text chunks
  | simple value => exact .simple value
  | float width bits => exact .float width bits
  | tag number _ ih => exact .tag number (ih hle)
  | array hdepth hlength _ ih =>
      exact .array (Nat.lt_of_le_of_lt hle hdepth) hlength
        (fun item hmem => ih item hmem (Nat.succ_le_succ hle))
  | map hdepth hlength _ _ ihkeys ihvalues =>
      exact .map (Nat.lt_of_le_of_lt hle hdepth) hlength
        (fun pair hmem => ihkeys pair hmem (Nat.succ_le_succ hle))
        (fun pair hmem => ihvalues pair hmem (Nat.succ_le_succ hle))

end Item

/-! ## What is read keeps to the limits -/

/-- Pairing up loses no element and adds none. -/
theorem eq_elementsOf_of_pairUp {items : List Item} {pairs : List (Item × Item)}
    (h : pairUp items = some pairs) : items = elementsOf pairs := by
  fun_induction pairUp items generalizing pairs with
  | case1 =>
      cases h
      rfl
  | case2 => cases h
  | case3 key value rest ih =>
      obtain ⟨more, hmore, rfl⟩ := Option.map_eq_some_iff.mp h
      rw [ih hmore]
      rfl

theorem forall_mem_elementsOf_iff {P : Item → Prop} {pairs : List (Item × Item)} :
    (∀ item ∈ elementsOf pairs, P item) ↔ ∀ pair ∈ pairs, P pair.1 ∧ P pair.2 := by
  induction pairs with
  | nil => simp [elementsOf]
  | cons pair rest ih =>
      show (∀ item ∈ pair.1 :: pair.2 :: elementsOf rest, P item) ↔ _
      rw [List.forall_mem_cons, List.forall_mem_cons, List.forall_mem_cons, ih, and_assoc]

/-- With a certain amount of fuel, whatever is read keeps to the limits. -/
structure ReadsWithin (fuel : Nat) : Prop where
  item : ∀ {depth : Nat} {bytes rest : Bytes} {item : Item},
    readItem? fuel depth bytes = some (item, rest) → item.Fits depth
  elements : ∀ {depth : Nat} {head : Head} {group : Nat} {done : Array Item} {bytes rest : Bytes}
    {items : List Item}, readElements? fuel depth head group done bytes = some (items, rest) →
    (∀ item ∈ done.toList, item.Fits depth) → done.size ≤ group * maxElements →
    depth ≤ maxNesting ∧ items.length ≤ group * maxElements ∧ ∀ item ∈ items, item.Fits depth

theorem ReadsWithin.elements_next {fuel : Nat} (ih : ReadsWithin fuel) {depth : Nat} {head : Head}
    {group : Nat} {done : Array Item} {bytes rest : Bytes} {items : List Item}
    (h : (do
      let (item, rest) ← readItem? fuel depth bytes
      readElements? fuel depth head group (done.push item) rest) = some (items, rest))
    (hdone : ∀ item ∈ done.toList, item.Fits depth) (hsize : done.size < group * maxElements) :
    depth ≤ maxNesting ∧ items.length ≤ group * maxElements ∧ ∀ item ∈ items, item.Fits depth := by
  obtain ⟨⟨first, after⟩, hfirst, h⟩ := Option.bind_eq_some_iff.mp h
  have hmore : ∀ item ∈ (done.push first).toList, item.Fits depth := by
    rw [Array.toList_push]
    exact List.forall_mem_append.mpr ⟨hdone, List.forall_mem_singleton.mpr (ih.item hfirst)⟩
  exact ih.elements h hmore (by rw [Array.size_push]; exact hsize)

theorem ReadsWithin.elements_succ {fuel : Nat} (ih : ReadsWithin fuel) {depth : Nat} {head : Head}
    {group : Nat} {done : Array Item} {bytes rest : Bytes} {items : List Item}
    (h : readElements? (fuel + 1) depth head group done bytes = some (items, rest))
    (hdone : ∀ item ∈ done.toList, item.Fits depth) (hsize : done.size ≤ group * maxElements) :
    depth ≤ maxNesting ∧ items.length ≤ group * maxElements ∧ ∀ item ∈ items, item.Fits depth := by
  unfold readElements? at h
  split at h
  · cases h
  · next hdepth =>
      have hnesting : depth ≤ maxNesting := Nat.not_lt.mp hdepth
      split at h
      · -- the length is unstated: a break ends the elements, and the limit is looked at
        -- before each of them
        cases bytes with
        | nil => cases h
        | cons byte after =>
            simp only at h
            split at h
            · obtain ⟨rfl, -⟩ := Prod.mk.inj (Option.some.inj h)
              exact ⟨hnesting, hsize, hdone⟩
            · split at h
              · cases h
              · next hlimit => exact ih.elements_next h hdone (Nat.not_le.mp hlimit)
      · split at h
        · cases h
        · next hargument =>
            split at h
            · obtain ⟨rfl, -⟩ := Prod.mk.inj (Option.some.inj h)
              exact ⟨hnesting, hsize, hdone⟩
            · next hmore =>
                have hlimit := Nat.mul_le_mul_left group (Nat.not_lt.mp hargument)
                exact ih.elements_next h hdone (by omega)

theorem ReadsWithin.item_succ {fuel : Nat} (ih : ReadsWithin fuel) {depth : Nat}
    {bytes rest : Bytes} {item : Item}
    (h : readItem? (fuel + 1) depth bytes = some (item, rest)) : item.Fits depth := by
  have hnone : ∀ item ∈ (#[] : Array Item).toList, item.Fits (depth + 1) := by
    intro item hmem
    cases hmem
  rw [readItem?] at h
  obtain ⟨⟨head, after⟩, -, h⟩ := Option.bind_eq_some_iff.mp h
  dsimp only at h
  split at h
  · cases h
    exact .unsigned _
  · cases h
    exact .negative _
  · split at h
    · obtain ⟨chunks, -, h⟩ := Option.bind_eq_some_iff.mp h
      cases h
      exact .bytes _
    · obtain ⟨content, -, h⟩ := Option.bind_eq_some_iff.mp h
      cases h
      exact .bytes _
  · split at h
    · obtain ⟨chunks, -, h⟩ := Option.bind_eq_some_iff.mp h
      cases h
      exact .text _
    · obtain ⟨content, -, h⟩ := Option.bind_eq_some_iff.mp h
      cases h
      exact .text _
  · obtain ⟨⟨items, last⟩, hitems, h⟩ := Option.bind_eq_some_iff.mp h
    dsimp only at h
    cases h
    obtain ⟨hdepth, hlength, hfits⟩ := ih.elements hitems hnone (Nat.zero_le _)
    exact .array hdepth (by omega) hfits
  · obtain ⟨⟨items, last⟩, hitems, h⟩ := Option.bind_eq_some_iff.mp h
    dsimp only at h
    obtain ⟨pairs, hpairs, h⟩ := Option.bind_eq_some_iff.mp h
    cases h
    obtain ⟨hdepth, hlength, hfits⟩ := ih.elements hitems hnone (Nat.zero_le _)
    rw [eq_elementsOf_of_pairUp hpairs] at hlength hfits
    rw [length_elementsOf] at hlength
    exact Item.fits_map_iff.mpr ⟨hdepth, by omega, forall_mem_elementsOf_iff.mp hfits⟩
  · have hinner : depth ≤ if opensTag after then depth + 1 else depth := by
      split <;> omega
    generalize (if opensTag after then depth + 1 else depth) = inner at h hinner
    split at h
    · cases h
    · obtain ⟨⟨content, last⟩, hcontent, h⟩ := Option.bind_eq_some_iff.mp h
      cases h
      exact .tag _ ((ih.item hcontent).of_le hinner)
  · split at h
    · cases h
      exact .simple _
    · cases h
      exact .simple _
    · cases h
      exact .float _ _

theorem readsWithin (fuel : Nat) : ReadsWithin fuel := by
  induction fuel with
  | zero =>
      refine ⟨fun h => ?_, fun h _ _ => ?_⟩
      · rw [readItem?] at h
        cases h
      · rw [readElements?] at h
        cases h
  | succ fuel ih => exact ⟨ih.item_succ, ih.elements_succ⟩

/-- An item that was read keeps to the limits. -/
theorem Item.fits_of_read? {bytes : Bytes} {item : Item} (h : Item.read? bytes = some item) :
    item.Fits 0 := by
  unfold Item.read? at h
  split at h
  · next hread =>
      cases h
      exact (readsWithin _).item hread
  · cases h

/-! ## What keeps to the limits is read back -/

namespace Item

mutual

/-- What is written after an item does not change how it is written. -/
theorem writeOnto_append : (item : Item) → (first second : Bytes) →
    item.writeOnto (first ++ second) = item.writeOnto first ++ second
  | .unsigned n, first, second => by simp only [writeOnto, List.append_assoc]
  | .negative n, first, second => by simp only [writeOnto, List.append_assoc]
  | .bytes content, first, second => by simp only [writeOnto, List.append_assoc]
  | .text chunks, first, second => by simp only [writeOnto, List.append_assoc]
  | .array items, first, second => by
      rw [writeOnto, writeOnto, writeItems_append items, List.append_assoc]
  | .map pairs, first, second => by
      rw [writeOnto, writeOnto, writePairs_append pairs, List.append_assoc]
  | .tag number content, first, second => by
      rw [writeOnto, writeOnto, writeOnto_append content, List.append_assoc]
  | .simple value, first, second => by simp only [writeOnto, List.append_assoc]
  | .float width bits, first, second => by simp only [writeOnto, List.append_assoc]

theorem writeItems_append : (items : List Item) → (first second : Bytes) →
    writeItems items (first ++ second) = writeItems items first ++ second
  | [], first, second => rfl
  | item :: items, first, second => by
      rw [writeItems, writeItems, writeItems_append items, writeOnto_append item]

theorem writePairs_append : (pairs : List (Item × Item)) → (first second : Bytes) →
    writePairs pairs (first ++ second) = writePairs pairs first ++ second
  | [], first, second => rfl
  | (key, value) :: pairs, first, second => by
      rw [writePairs, writePairs, writePairs_append pairs, writeOnto_append value,
        writeOnto_append key]

end

theorem length_writeOnto (item : Item) (rest : Bytes) :
    (item.writeOnto rest).length = item.write.length + rest.length := by
  rw [write, ← List.length_append, ← writeOnto_append, List.nil_append]

end Item

/-- How many bytes items take. -/
def sizeOfItems : List Item → Nat
  | [] => 0
  | item :: items => item.write.length + sizeOfItems items

theorem length_writeItems (items : List Item) (rest : Bytes) :
    (Item.writeItems items rest).length = sizeOfItems items + rest.length := by
  induction items with
  | nil => exact (Nat.zero_add _).symm
  | cons item more ih =>
      rw [Item.writeItems, Item.length_writeOnto, ih, sizeOfItems, Nat.add_assoc]

theorem length_writeHead_pos (major argument : Nat) : 0 < (writeHead major argument).length := by
  unfold writeHead
  simp only
  repeat' split
  all_goals exact Nat.succ_pos _

/-- The items that values travel as, with numbers and lengths that have a head. -/
inductive Item.Short : Item → Prop
  | unsigned {n : Nat} : n < 0x10000000000000000 → Short (.unsigned n)
  | bytes {content : Bytes} : content.length < 0x10000000000000000 → Short (.bytes content)
  | array {items : List Item} : (∀ item ∈ items, Short item) → Short (.array items)
  | map {pairs : List (Item × Item)} : (∀ pair ∈ pairs, Short pair.1) →
      (∀ pair ∈ pairs, Short pair.2) → Short (.map pairs)

theorem Item.short_map {pairs : List (Item × Item)}
    (h : ∀ pair ∈ pairs, pair.1.Short ∧ pair.2.Short) : (Item.map pairs).Short :=
  .map (fun pair hmem => (h pair hmem).1) (fun pair hmem => (h pair hmem).2)

theorem Item.Short.length_write_pos {item : Item} (h : item.Short) : 0 < item.write.length := by
  cases h <;> rw [write, writeOnto, List.length_append] <;>
    exact Nat.add_pos_left (length_writeHead_pos ..) _

/-- The item is read from the front of its encoding, with fuel for twice its bytes. -/
def Item.ReadsBack (depth : Nat) (item : Item) : Prop :=
  ∀ {fuel : Nat} (rest : Bytes), 2 * item.write.length ≤ fuel →
    readItem? fuel depth (item.writeOnto rest) = some (item, rest)

/-- Elements that are read one by one are read all together. -/
theorem readElements?_writeItems {depth : Nat} {items : List Item}
    (hitems : ∀ item ∈ items, item.ReadsBack depth ∧ 0 < item.write.length) {head : Head}
    {group fuel : Nat} {done : Array Item} (hdepth : depth ≤ maxNesting)
    (hinfo : head.info ≠ Head.unstated) (hargument : head.argument ≤ maxElements)
    (hcount : group * head.argument = done.size + items.length)
    (hfuel : 2 * sizeOfItems items < fuel) (rest : Bytes) :
    readElements? fuel depth head group done (Item.writeItems items rest) =
      some (done.toList ++ items, rest) := by
  induction items generalizing fuel done with
  | nil =>
      obtain ⟨fuel, rfl⟩ : ∃ less, fuel = less + 1 := ⟨fuel - 1, by omega⟩
      unfold readElements?
      rw [if_neg (Nat.not_lt.mpr hdepth), if_neg hinfo, if_neg (Nat.not_lt.mpr hargument),
        if_pos (show group * head.argument ≤ done.size from Nat.le_of_eq hcount), List.append_nil]
      rfl
  | cons item more ih =>
      obtain ⟨⟨hitem, hpos⟩, hmore⟩ := List.forall_mem_cons.mp hitems
      rw [sizeOfItems] at hfuel
      rw [List.length_cons] at hcount
      obtain ⟨fuel, rfl⟩ : ∃ less, fuel = less + 1 := ⟨fuel - 1, by omega⟩
      have hcount' : group * head.argument = (done.push item).size + more.length := by
        rw [hcount, Array.size_push]
        omega
      unfold readElements?
      rw [Item.writeItems, if_neg (Nat.not_lt.mpr hdepth), if_neg hinfo,
        if_neg (Nat.not_lt.mpr hargument), if_neg (by omega), hitem _ (by omega)]
      show readElements? fuel depth head group (done.push item) (Item.writeItems more rest) = _
      rw [ih hmore hcount' (by omega), Array.toList_push, List.append_assoc]
      rfl

/-- The head of an array or map is read as it was written, and the elements behind it. -/
theorem exists_readElements?_writeItems (major : Nat) {depth count group : Nat} {items : List Item}
    (hitems : ∀ item ∈ items, item.ReadsBack (depth + 1) ∧ 0 < item.write.length)
    (hmajor : major < 7) (hdepth : depth < maxNesting) (hcount : count ≤ maxElements)
    (hlength : group * count = items.length) {fuel : Nat} (hfuel : 2 * sizeOfItems items < fuel)
    (rest : Bytes) :
    ∃ info, readHead? (writeHead major count ++ Item.writeItems items rest) =
        some (⟨major, info, count⟩, Item.writeItems items rest) ∧
      readElements? fuel (depth + 1) ⟨major, info, count⟩ group #[] (Item.writeItems items rest) =
        some (items, rest) := by
  obtain ⟨info, hinfo, hhead⟩ := readHead?_writeHead hmajor
    (Nat.lt_of_le_of_lt hcount (by decide)) (Item.writeItems items rest)
  have hall : group * count = (#[] : Array Item).size + items.length :=
    hlength.trans (Nat.zero_add _).symm
  exact ⟨info, hhead,
    readElements?_writeItems hitems hdepth (Nat.ne_of_lt hinfo) hcount hall hfuel rest⟩

/-- An item that keeps to the limits is read back. -/
theorem Item.Short.readsBack {item : Item} (h : item.Short) {depth : Nat}
    (hfits : item.Fits depth) : item.ReadsBack depth := by
  induction h generalizing depth with
  | @unsigned n hn =>
      intro fuel rest hfuel
      have hpos := (Short.unsigned hn).length_write_pos
      obtain ⟨fuel, rfl⟩ : ∃ less, fuel = less + 1 := ⟨fuel - 1, by omega⟩
      obtain ⟨info, -, hhead⟩ := @readHead?_writeHead 0 n (by decide) hn rest
      rw [readItem?, writeOnto, hhead]
      rfl
  | @bytes content hcontent =>
      intro fuel rest hfuel
      have hpos := (Short.bytes hcontent).length_write_pos
      obtain ⟨fuel, rfl⟩ : ∃ less, fuel = less + 1 := ⟨fuel - 1, by omega⟩
      obtain ⟨info, hinfo, hhead⟩ :=
        @readHead?_writeHead 2 content.length (by decide) hcontent (content ++ rest)
      rw [readItem?, writeOnto, hhead]
      show (if info = Head.unstated then _ else _) = _
      rw [if_neg (Nat.ne_of_lt hinfo), takeExactly?_append]
      rfl
  | @array items hitems ih =>
      intro fuel rest hfuel
      obtain ⟨hdepth, hlength, hitemsFit⟩ := fits_array_iff.mp hfits
      have hpos := length_writeHead_pos 4 items.length
      rw [write, writeOnto, List.length_append, length_writeItems, List.length_nil] at hfuel
      obtain ⟨fuel, rfl⟩ : ∃ less, fuel = less + 1 := ⟨fuel - 1, by omega⟩
      have hback : ∀ item ∈ items, item.ReadsBack (depth + 1) ∧ 0 < item.write.length :=
        fun item hmem => ⟨ih item hmem (hitemsFit item hmem), (hitems item hmem).length_write_pos⟩
      obtain ⟨info, hhead, hread⟩ := exists_readElements?_writeItems 4 hback (by decide) hdepth
        hlength (Nat.one_mul _) (show _ < fuel by omega) rest
      rw [readItem?, writeOnto, hhead]
      show (readElements? fuel (depth + 1) ⟨4, info, items.length⟩ 1 #[] _).bind _ = _
      rw [hread]
      rfl
  | @map pairs hkeys hvalues ihkeys ihvalues =>
      intro fuel rest hfuel
      obtain ⟨hdepth, hlength, hpairsFit⟩ := fits_map_iff.mp hfits
      have hpos := length_writeHead_pos 5 pairs.length
      rw [write, writeOnto, List.length_append, writePairs_eq_writeItems, length_writeItems,
        List.length_nil] at hfuel
      obtain ⟨fuel, rfl⟩ : ∃ less, fuel = less + 1 := ⟨fuel - 1, by omega⟩
      have hback : ∀ item ∈ elementsOf pairs,
          item.ReadsBack (depth + 1) ∧ 0 < item.write.length := by
        refine forall_mem_elementsOf_iff.mpr fun pair hmem => ⟨⟨?_, ?_⟩, ?_, ?_⟩
        · exact ihkeys pair hmem (hpairsFit pair hmem).1
        · exact (hkeys pair hmem).length_write_pos
        · exact ihvalues pair hmem (hpairsFit pair hmem).2
        · exact (hvalues pair hmem).length_write_pos
      obtain ⟨info, hhead, hread⟩ := exists_readElements?_writeItems 5 hback (by decide) hdepth
        hlength (length_elementsOf pairs).symm (show _ < fuel by omega) rest
      rw [readItem?, writeOnto, writePairs_eq_writeItems, hhead]
      show (readElements? fuel (depth + 1) ⟨5, info, pairs.length⟩ 2 #[] _).bind _ = _
      rw [hread, Option.bind_some]
      show (pairUp (elementsOf pairs)).bind _ = _
      rw [pairUp_elementsOf]
      rfl

/-- The encoding of an item that keeps to the limits is read as that item. -/
theorem Item.Short.read?_write_of_fits {item : Item} (h : item.Short) (hfits : item.Fits 0) :
    Item.read? item.write = some item := by
  have hread : readItem? (2 * item.write.length + 2) 0 item.write = some (item, []) :=
    h.readsBack hfits [] (Nat.le_add_right ..)
  rw [Item.read?, hread]

/-- The encoding of any other item is not read at all. -/
theorem Item.Plain.read?_write_of_not_fits {item : Item} (h : item.Plain) (hfits : ¬item.Fits 0) :
    Item.read? item.write = none := by
  rw [Option.eq_none_iff_forall_ne_some]
  intro item' hread
  apply hfits
  rw [← Item.eq_of_read?_write h hread]
  exact Item.fits_of_read? hread

end BitLang.Cbor
