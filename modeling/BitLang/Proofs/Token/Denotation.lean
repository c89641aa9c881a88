/-
# What literals denote

Bits are written down as a run of decimal digits or in one of three quoted forms.  Digits
denote the number that they are in base ten, if 64 bits hold it.  A quoted form denotes what
its content says: bytes as they are, bytes in hexadecimal digits, or single bits.

A backslash before each mark and each backslash lets any content be quoted.  Contents are
escaped byte by byte and read rune by rune, but a mark or a backslash is ASCII, so what comes
before it is read the same whether or not a backslash is put between them.  Bytes that belong
to no valid encoding come through as they are.
-/

import BitLang.Proofs.BitSeq.Refinement
import BitLang.Proofs.Token.Respacing
import Mathlib.Data.Nat.Digits.Defs

namespace BitLang

open Scanner

/-! ## Quoting -/

/-- A character of ASCII is read only where its byte is. -/
theorem Rune.toUInt8_mem_of_is {text : Bytes} {rune : Rune} (hmem : rune ∈ list text) {c : Char}
    (hc : c.toNat < 0x80) (h : rune.is c = true) : c.toUInt8 ∈ text := by
  have hcode : rune.code = c.toNat := beq_iff_eq.mp h
  obtain ⟨byte, -, rfl⟩ := (proper_of_mem_list text rune hmem).exists_ascii (hcode ▸ hc)
  have hbyte : byte = c.toUInt8 := by
    rw [← UInt8.ofNat_toNat (x := byte), Char.toUInt8]
    exact congrArg UInt8.ofNat hcode
  rw [← bytesOf_list text, ← hbyte]
  exact List.mem_flatMap_of_mem hmem (List.mem_singleton_self byte)

namespace Quote

/-- The byte that opens and closes the form. -/
def mark (quote : Quote) : UInt8 := quote.delimiter.toUInt8

/-- The byte ends a quoted form, or escapes the rune behind it. -/
def IsSpecial (quote : Quote) (byte : UInt8) : Prop := byte = 0x5C ∨ byte = quote.mark

instance (quote : Quote) (byte : UInt8) : Decidable (quote.IsSpecial byte) :=
  inferInstanceAs (Decidable (byte = 0x5C ∨ byte = quote.mark))

/-- A backslash before each byte that would not count by itself. -/
def escape (quote : Quote) (content : Bytes) : Bytes :=
  content.flatMap fun byte => if quote.IsSpecial byte then [0x5C, byte] else [byte]

/-- The rune counts as it is. -/
def IsPlain (quote : Quote) (rune : Rune) : Prop :=
  rune.is '\\' = false ∧ rune.is quote.delimiter = false

/-- What stands inside a quoted form, and the runes of it that count. -/
inductive Encloses (quote : Quote) : (body content : List Rune) → Prop
  | nil : Encloses quote [] []
  | plain {rune : Rune} {body content : List Rune} (hrune : quote.IsPlain rune)
      (h : Encloses quote body content) : Encloses quote (rune :: body) (rune :: content)
  | escaped {slash rune : Rune} {body content : List Rune} (hslash : slash.is '\\' = true)
      (h : Encloses quote body content) : Encloses quote (slash :: rune :: body) (rune :: content)

variable {quote : Quote}

theorem Encloses.append {body body' content content' : List Rune}
    (h : quote.Encloses body content) (h' : quote.Encloses body' content') :
    quote.Encloses (body ++ body') (content ++ content') := by
  induction h with
  | nil => exact h'
  | plain hrune _ ih => exact .plain hrune ih
  | escaped hslash _ ih => exact .escaped hslash ih

theorem encloses_self {runes : List Rune} (h : ∀ rune ∈ runes, quote.IsPlain rune) :
    quote.Encloses runes runes := by
  induction runes with
  | nil => exact .nil
  | cons rune rest ih =>
      obtain ⟨hrune, hrest⟩ := List.forall_mem_cons.mp h
      exact .plain hrune (ih hrest)

theorem isPlain_of_mem_list {text : Bytes} (h : ∀ byte ∈ text, ¬ quote.IsSpecial byte)
    {rune : Rune} (hmem : rune ∈ Rune.list text) : quote.IsPlain rune := by
  constructor
  · rw [← Bool.not_eq_true]
    intro hslash
    exact h _ (Rune.toUInt8_mem_of_is hmem (by decide) hslash) (.inl rfl)
  · rw [← Bool.not_eq_true]
    intro hdelimiter
    refine h _ (Rune.toUInt8_mem_of_is hmem ?_ hdelimiter) (.inr rfl)
    cases quote <;> decide

theorem IsSpecial.lt {byte : UInt8} (h : quote.IsSpecial byte) : byte < 0x80 := by
  rcases h with rfl | rfl
  · decide
  · cases quote <;> decide

theorem escape_append (front back : Bytes) :
    quote.escape (front ++ back) = quote.escape front ++ quote.escape back :=
  List.flatMap_append

theorem escape_eq_self {content : Bytes} (h : ∀ byte ∈ content, ¬ quote.IsSpecial byte) :
    quote.escape content = content := by
  induction content with
  | nil => rfl
  | cons byte rest ih =>
      obtain ⟨hbyte, hrest⟩ := List.forall_mem_cons.mp h
      rw [escape, List.flatMap_cons, if_neg hbyte, ← escape, ih hrest]
      rfl

/-- Inside a quoted form, escaped content counts for what it was before.  Behind it bytes may
follow that need no escape, so that the induction can move to them the bytes that stand at the
end and need none either; these may be part of an encoding that begins further to the left. -/
theorem encloses_list_escape_append (quote : Quote) (content back : Bytes)
    (hback : ∀ byte ∈ back, ¬ quote.IsSpecial byte) :
    quote.Encloses (Rune.list (quote.escape content ++ back)) (Rune.list (content ++ back)) := by
  induction content using List.reverseRecOn generalizing back with
  | nil => exact encloses_self fun rune hmem => isPlain_of_mem_list hback hmem
  | append_singleton content byte ih =>
      rw [escape_append, List.append_assoc, List.append_assoc, List.singleton_append]
      by_cases hbyte : quote.IsSpecial byte
      · have hfront := ih [] fun _ hmem => nomatch hmem
        rw [List.append_nil, List.append_nil] at hfront
        have hescape : quote.escape [byte] = [0x5C, byte] := by simp [escape, hbyte]
        rw [hescape, List.cons_append, List.singleton_append,
          Rune.list_append _ (Rune.startsAnew_ascii (by decide) _),
          Rune.list_append _ (Rune.startsAnew_ascii hbyte.lt back),
          Rune.list_cons_ascii (by decide), Rune.list_cons_ascii hbyte.lt]
        apply hfront.append
        exact .escaped rfl (encloses_self fun rune hmem => isPlain_of_mem_list hback hmem)
      · have hescape : quote.escape [byte] = [byte] := by simp [escape, hbyte]
        rw [hescape, List.singleton_append]
        exact ih (byte :: back) (List.forall_mem_cons.mpr ⟨hbyte, hback⟩)

theorem encloses_list_escape (quote : Quote) (content : Bytes) :
    quote.Encloses (Rune.list (quote.escape content)) (Rune.list content) := by
  have h := quote.encloses_list_escape_append content [] fun _ hmem => nomatch hmem
  rwa [List.append_nil, List.append_nil] at h

/-- The content written in the quoted form. -/
def spell (quote : Quote) (content : Bytes) : Bytes :=
  quote.mark :: (quote.escape content ++ [quote.mark])

theorem mark_lt : quote.mark < 0x80 := IsSpecial.lt (.inr rfl)

/-- A quoted form left open is read as its first rune and what it holds. -/
theorem list_open (quote : Quote) (text : Bytes) :
    Rune.list (quote.mark :: text) = Rune.ascii quote.mark :: Rune.list text :=
  Rune.list_cons_ascii mark_lt text

theorem list_spell (quote : Quote) (content : Bytes) :
    Rune.list (quote.spell content) =
      Rune.ascii quote.mark :: (Rune.list (quote.escape content) ++ [Rune.ascii quote.mark]) := by
  rw [spell, list_open, Rune.list_append _ (Rune.startsAnew_ascii mark_lt []), list_open]
  rfl

theorem list_spell_append (quote : Quote) (content rest : Bytes) :
    Rune.list (quote.spell content ++ rest) =
      Rune.list (quote.spell content) ++ Rune.list rest := by
  apply Rune.list_append_of_ascii
  rw [spell, ← List.cons_append, List.getLast?_concat]
  rintro _ ⟨⟩
  exact mark_lt

theorem is_delimiter (quote : Quote) : (Rune.ascii quote.mark).is quote.delimiter = true := by
  cases quote <;> rfl

end Quote

/-! ## Reading a quoted form -/

namespace Scanner

variable {quote : Quote} {rune : Rune}

theorem step_delimiter (h : rune.is quote.delimiter = true) (pos : Position) :
    step pos .layout rune = ([], .quoted pos quote false [rune] []) := by
  rw [Rune.is, beq_iff_eq] at h
  cases quote <;>
    simp [step, start, Rune.isSpace, Lexeme.mark?, Quote.opening?, Rune.is, h, Quote.delimiter]

variable (pos first : Position) (raw held : List Rune)

theorem step_quoted_plain (h : quote.IsPlain rune) :
    step pos (.quoted first quote false raw held) rune =
      ([], .quoted first quote false (rune :: raw) (rune :: held)) := by
  simp [step, h.1, h.2]

theorem step_quoted_backslash (h : rune.is '\\' = true) :
    step pos (.quoted first quote false raw held) rune =
      ([], .quoted first quote true (rune :: raw) held) := if_pos h

theorem step_quoted_delimiter (h : rune.is quote.delimiter = true) :
    step pos (.quoted first quote false raw held) rune =
      ([literal first (rune :: raw) (quote.denote (Rune.bytesOf held.reverse))], .layout) := by
  have hslash : rune.is '\\' = false := by
    rw [Rune.is, beq_iff_eq] at h
    cases quote <;> simp [Rune.is, h, Quote.delimiter]
  simp [step, hslash, h, Mode.finish]

end Scanner

namespace Cursor

variable {quote : Quote}

theorem readIn_body_append {body content : List Rune} (h : quote.Encloses body content)
    (place : Place) (first : Position) (raw held rest : List Rune) :
    readIn (.quoted first quote false raw held) place (body ++ rest) =
      readIn (.quoted first quote false (body.reverse ++ raw) (content.reverse ++ held))
        (place.passAll body) rest := by
  induction h generalizing place raw held with
  | nil => rfl
  | @plain rune body content hrune _ ih =>
      rw [List.cons_append, readIn_skip rfl (step_quoted_plain _ _ _ _ hrune), ih,
        List.reverse_cons, List.reverse_cons, List.append_assoc, List.append_assoc]
      rfl
  | @escaped slash rune body content hslash _ ih =>
      rw [List.cons_append, readIn_skip rfl (step_quoted_backslash _ _ _ _ hslash),
        List.cons_append, readIn_skip rfl rfl, ih]
      simp only [List.reverse_cons, List.append_assoc, List.singleton_append]
      rfl

/-- A cursor before a quoted form hands it out as a literal and then stands behind it. -/
theorem next_spell (quote : Quote) (content rest : Bytes) (place : Place) :
    next ⟨place, Rune.list (quote.spell content ++ rest)⟩ =
      (⟨.literal (quote.denote content), quote.spell content, place.ahead⟩,
        ⟨place.passAll (Rune.list (quote.spell content)), Rune.list rest⟩) := by
  have hraw : (Rune.ascii quote.mark ::
      ((Rune.list (quote.escape content)).reverse ++ [Rune.ascii quote.mark])).reverse =
        Rune.list (quote.spell content) := by
    simp [quote.list_spell]
  rw [next, quote.list_spell_append, quote.list_spell, List.cons_append, List.append_assoc,
    List.singleton_append, readIn_skip rfl (step_delimiter quote.is_delimiter _),
    readIn_body_append (quote.encloses_list_escape content),
    readIn_complete rfl (step_quoted_delimiter _ _ _ _ quote.is_delimiter), literal, hraw,
    Rune.bytesOf_list, List.append_nil, List.reverse_reverse, Rune.bytesOf_list,
    Place.passAll_cons, Place.passAll_append]
  rfl

/-- A quoted form that is left open goes on to the end of the text. -/
theorem next_open (quote : Quote) (content : Bytes) (place : Place) :
    next ⟨place, Rune.list (quote.mark :: quote.escape content)⟩ =
      (⟨.literal (quote.denote content), quote.mark :: quote.escape content, place.ahead⟩,
        ⟨place.passAll (Rune.list (quote.mark :: quote.escape content)), []⟩) := by
  have hread := readIn_body_append (quote.encloses_list_escape content)
    (place.pass (Rune.ascii quote.mark)) place.ahead [Rune.ascii quote.mark] [] []
  rw [List.append_nil] at hread
  have hraw : ((Rune.list (quote.escape content)).reverse ++ [Rune.ascii quote.mark]).reverse =
      Rune.list (quote.mark :: quote.escape content) := by
    simp [quote.list_open]
  rw [next, quote.list_open, readIn_skip rfl (step_delimiter quote.is_delimiter _), hread, readIn,
    Mode.finish, literal, hraw, Rune.bytesOf_list, List.append_nil, List.reverse_reverse,
    Rune.bytesOf_list, Place.passAll_cons]
  rfl

end Cursor

/-! ## Decimal digits -/

namespace Decimal

/-- The byte is a decimal digit. -/
def IsDigit (byte : UInt8) : Prop := 0x30 ≤ byte ∧ byte ≤ 0x39

instance (byte : UInt8) : Decidable (IsDigit byte) :=
  inferInstanceAs (Decidable (0x30 ≤ byte ∧ byte ≤ 0x39))

/-- The number that digits are in base ten; the last of them counts ones. -/
def valueOf (digits : Bytes) : Nat :=
  Nat.ofDigits 10 (digits.reverse.map fun digit => digit.toNat - 0x30)

end Decimal

theorem Rune.isDigit_ascii {byte : UInt8} (h : Decimal.IsDigit byte) :
    (ascii byte).isDigit = true := by
  rw [isDigit, Bool.and_eq_true, decide_eq_true_iff, decide_eq_true_iff]
  exact ⟨UInt8.le_iff_toNat_le.mp h.1, UInt8.le_iff_toNat_le.mp h.2⟩

namespace Scanner

theorem step_digit {rune : Rune} (h : rune.isDigit = true) (pos : Position) :
    step pos .layout rune = ([], .number pos [rune]) := by
  have hother {c : Char} (hc : c.toNat < 0x30 ∨ 0x39 < c.toNat) : rune.is c = false := by
    simp only [Rune.isDigit, Bool.and_eq_true, decide_eq_true_eq] at h
    simp only [Rune.is, beq_eq_false_iff_ne]
    omega
  simp [step, start, Rune.isSpace, Lexeme.mark?, Quote.opening?, Quote.delimiter, hother, h]

/-- Reading digits from left to right gives their value. -/
theorem decimal_eq_valueOf (digits : Bytes) : decimal digits = Decimal.valueOf digits := by
  induction digits using List.reverseRecOn with
  | nil => rfl
  | append_singleton digits digit ih =>
      rw [decimal, List.foldl_append, List.foldl_cons, List.foldl_nil, ← decimal, ih,
        Decimal.valueOf, Decimal.valueOf, List.reverse_append, List.reverse_singleton,
        List.singleton_append, List.map_cons, Nat.ofDigits_cons]
      exact Nat.add_comm _ _

theorem number_eq (start : Position) (digits : Bytes) :
    number start digits =
      if Decimal.valueOf digits < 2 ^ 64 then
        ⟨.literal (.encode (Decimal.valueOf digits)), digits, start⟩
      else ⟨.fault, utf8 "number literal out of range: " ++ digits, start⟩ := by
  have hlimit : 0x10000000000000000 = 2 ^ 64 := by norm_num
  rw [number, hlimit, decimal_eq_valueOf]

end Scanner

namespace Cursor

theorem readIn_digits {runes : List Rune} (h : ∀ rune ∈ runes, rune.isDigit = true)
    (place : Place) (first : Position) (raw : List Rune) :
    readIn (.number first raw) place runes =
      (some (number first (Rune.bytesOf (raw.reverse ++ runes))), ⟨place.passAll runes, []⟩) := by
  induction runes generalizing place raw with
  | nil =>
      rw [List.append_nil]
      rfl
  | cons rune rest ih =>
      obtain ⟨hrune, hrest⟩ := List.forall_mem_cons.mp h
      have hstep : step place.ahead (.number first raw) rune = ([], .number first (rune :: raw)) :=
        if_pos hrune
      rw [readIn_skip (by simp [Mode.stopsAt, hrune]) hstep, ih hrest, List.reverse_cons,
        List.append_assoc]
      rfl

/-- A text of digits is one number. -/
theorem next_digits {digits : Bytes} (hne : digits ≠ []) (h : ∀ byte ∈ digits, Decimal.IsDigit byte)
    (place : Place) :
    next ⟨place, Rune.list digits⟩ =
      (number place.ahead digits, ⟨place.passAll (Rune.list digits), []⟩) := by
  have hbytes := Rune.bytesOf_list digits
  have hdigits : ∀ rune ∈ Rune.list digits, rune.isDigit = true := by
    have hascii : ∀ byte ∈ digits, byte < 0x80 := by
      intro byte hmem
      exact UInt8.lt_of_le_of_lt (h byte hmem).2 (by decide)
    rw [Rune.list_ascii hascii]
    exact List.forall_mem_map.mpr fun byte hmem => Rune.isDigit_ascii (h byte hmem)
  cases hlist : Rune.list digits with
  | nil =>
      rw [hlist] at hbytes
      exact absurd hbytes.symm hne
  | cons rune rest =>
      rw [hlist] at hdigits hbytes
      obtain ⟨hrune, hrest⟩ := List.forall_mem_cons.mp hdigits
      rw [next, readIn_skip rfl (step_digit hrune _), readIn_digits hrest, List.reverse_singleton,
        List.singleton_append, hbytes]
      rfl

end Cursor

/-! ## Hexadecimal digits -/

namespace Hex

/-- The sixteen digits of both cases, with their values. -/
def digits : List (UInt8 × Nat) :=
  (utf8 "0123456789abcdef").zipIdx ++ (utf8 "0123456789ABCDEF").zipIdx

theorem digitValue?_eq_some_iff {byte : UInt8} {value : Nat} :
    digitValue? byte.toNat = some value ↔ (byte, value) ∈ digits := by
  constructor
  · have hall : ∀ byte : UInt8, ∀ value ∈ digitValue? byte.toNat, (byte, value) ∈ digits :=
      forall_byte (by decide +kernel)
    exact hall byte value
  · have hall : ∀ digit ∈ digits, digitValue? digit.1.toNat = some digit.2 := by
      decide +kernel
    exact hall (byte, value)

/-- The text is made of digit pairs, and these spell the bytes. -/
inductive Spells : (text bytes : Bytes) → Prop
  | nil : Spells [] []
  | pair {high low : UInt8} {h l : Nat} {text bytes : Bytes} (hhigh : (high, h) ∈ digits)
      (hlow : (low, l) ∈ digits) (hrest : Spells text bytes) :
      Spells (high :: low :: text) (UInt8.ofNat (16 * h + l) :: bytes)

/-- The body starts with digit pairs that spell the bytes, and then comes no other pair. -/
structure StartsWith (body front bytes : Bytes) : Prop where
  isPrefix : front <+: body
  spells : Spells front bytes
  longest : ∀ text other, text <+: body → Spells text other → text.length ≤ front.length

theorem startsWith_nil {body : Bytes}
    (h : ∀ text other, text <+: body → Spells text other → text = []) :
    StartsWith body [] [] where
  isPrefix := List.nil_prefix
  spells := .nil
  longest text other hstarts hspells := by rw [h text other hstarts hspells]

/-- What is decoded is spelled by the longest start of the body that spells anything. -/
theorem exists_startsWith (body : Bytes) : ∃ front, StartsWith body front (decodePrefix body) := by
  induction body using decodePrefix.induct with
  | case1 high low rest h l hlow hhigh ih =>
      obtain ⟨front, hrest⟩ := ih
      rw [decodePrefix, hhigh, hlow]
      refine ⟨high :: low :: front, ?_, ?_, ?_⟩
      · rw [List.cons_prefix_cons, List.cons_prefix_cons]
        exact ⟨rfl, rfl, hrest.isPrefix⟩
      · exact .pair (digitValue?_eq_some_iff.mp hhigh) (digitValue?_eq_some_iff.mp hlow)
          hrest.spells
      · intro text other hstarts hspells
        cases hspells with
        | nil => exact Nat.zero_le _
        | pair _ _ hspells =>
            rw [List.cons_prefix_cons, List.cons_prefix_cons] at hstarts
            exact Nat.add_le_add_right (hrest.longest _ _ hstarts.2.2 hspells) 2
  | case2 high low rest hnone =>
      have hnil : decodePrefix (high :: low :: rest) = [] := by
        rw [decodePrefix]
        split
        · next h l hhigh hlow => exact (hnone h l hhigh hlow).elim
        · rfl
      rw [hnil]
      refine ⟨[], startsWith_nil fun text other hstarts hspells => ?_⟩
      cases hspells with
      | nil => rfl
      | pair hhigh hlow _ =>
          rw [List.cons_prefix_cons, List.cons_prefix_cons] at hstarts
          obtain ⟨rfl, rfl, -⟩ := hstarts
          exact (hnone _ _ (digitValue?_eq_some_iff.mpr hhigh)
            (digitValue?_eq_some_iff.mpr hlow)).elim
  | case3 body hshort =>
      have hnil : decodePrefix body = [] := by
        rw [decodePrefix]
        exact hshort
      rw [hnil]
      refine ⟨[], startsWith_nil fun text other hstarts hspells => ?_⟩
      cases hspells with
      | nil => rfl
      | pair _ _ _ =>
          obtain ⟨rest, rfl⟩ := hstarts
          exact (hshort _ _ _ rfl).elim

end Hex

/-! ## Digits of bits -/

namespace BitSeq

theorem utf8_digits (b : BitSeq) :
    utf8 b.digits = b.toList.map fun bit => if bit then 0x31 else 0x30 := by
  have hencode (bit : Bool) :
      String.utf8EncodeChar (if bit then '1' else '0') = [if bit then 0x31 else 0x30] := by
    cases bit <;> rfl
  rw [digits, utf8_ofList, List.flatMap_map]
  simp only [hencode]
  exact List.map_eq_flatMap.symm

/-- The digits of a sequence are read back as its bits. -/
theorem ofDigits_digits {b : BitSeq} (h : b.Canonical) : ofDigits (utf8 b.digits) = b := by
  have hascii : ∀ byte ∈ utf8 b.digits, byte < 0x80 := by
    rw [utf8_digits]
    refine List.forall_mem_map.mpr fun bit _ => ?_
    cases bit <;> decide
  have hbit (bit : Bool) : (Rune.ascii (if bit then 0x31 else 0x30)).is '1' = bit := by
    cases bit <;> rfl
  rw [ofDigits, Rune.list_ascii hascii, utf8_digits, List.map_map, List.map_map]
  simp only [Function.comp_def, hbit, List.map_id_fun', id]
  exact h.ofList_toList

end BitSeq

/-! ## Literals -/

namespace Token

/-- The text is a literal, and nothing else, and denotes the bits. -/
def Denotes (text : Bytes) (bits : BitSeq) : Prop :=
  tokenize text = .ok [⟨.literal bits, text, Place.start.ahead⟩,
    Cursor.endToken ⟨Place.start.passAll (Rune.list text), []⟩]

/-- Wherever a cursor stands before the text, it finds a literal that denotes the bits, and
then stands behind it. -/
def DenotesWithin (text : Bytes) (bits : BitSeq) : Prop :=
  ∀ (place : Place) (rest : Bytes), Cursor.next ⟨place, Rune.list (text ++ rest)⟩ =
    (⟨.literal bits, text, place.ahead⟩, ⟨place.passAll (Rune.list text), Rune.list rest⟩)

/-- A text that makes a cursor find one token is read as this token. -/
theorem scan_of_next {text : Bytes} {token : Token} {after : Place}
    (h : Cursor.next ⟨.start, Rune.list text⟩ = (token, ⟨after, []⟩))
    (hlexeme : token.lexeme ≠ .endOfInput) :
    scan text = [token, Cursor.endToken ⟨after, []⟩] := by
  have htokens := Cursor.tokensFrom_next ⟨.start, Rune.list text⟩
  rw [h, if_neg hlexeme] at htokens
  rw [scan_eq]
  exact htokens

theorem denotes_of_next {text : Bytes} {bits : BitSeq}
    (h : Cursor.next ⟨.start, Rune.list text⟩ = (⟨.literal bits, text, Place.start.ahead⟩,
      ⟨Place.start.passAll (Rune.list text), []⟩)) : Denotes text bits := by
  apply tokenize_eq_ok_iff.mpr
  refine ⟨scan_of_next h Lexeme.noConfusion, ?_⟩
  simp [Cursor.endToken]

theorem DenotesWithin.denotes {text : Bytes} {bits : BitSeq} (h : DenotesWithin text bits) :
    Denotes text bits := by
  apply denotes_of_next
  have hnext := h .start []
  rw [List.append_nil] at hnext
  exact hnext

theorem denotesWithin_spell (quote : Quote) (content : Bytes) :
    DenotesWithin (quote.spell content) (quote.denote content) :=
  fun place rest => Cursor.next_spell quote content rest place

/-- Content that needs no escape is quoted by putting a mark on either side. -/
theorem denotesWithin_plain (quote : Quote) {content : Bytes}
    (h : ∀ byte ∈ content, ¬ quote.IsSpecial byte) :
    DenotesWithin (quote.mark :: (content ++ [quote.mark])) (quote.denote content) := by
  have hspell := denotesWithin_spell quote content
  rw [Quote.spell, Quote.escape_eq_self h] at hspell
  exact hspell

theorem denotes_open (quote : Quote) {content : Bytes}
    (h : ∀ byte ∈ content, ¬ quote.IsSpecial byte) :
    Denotes (quote.mark :: content) (quote.denote content) := by
  have hnext := Cursor.next_open quote content .start
  rw [Quote.escape_eq_self h] at hnext
  exact denotes_of_next hnext

theorem denotes_digits {digits : Bytes} (hne : digits ≠ [])
    (h : ∀ byte ∈ digits, Decimal.IsDigit byte) (hvalue : Decimal.valueOf digits < 2 ^ 64) :
    Denotes digits (.encode (Decimal.valueOf digits)) := by
  apply denotes_of_next
  rw [Cursor.next_digits hne h, number_eq, if_pos hvalue]

theorem tokenize_digits {digits : Bytes} (hne : digits ≠ [])
    (h : ∀ byte ∈ digits, Decimal.IsDigit byte) (hvalue : 2 ^ 64 ≤ Decimal.valueOf digits) :
    tokenize digits = .error ⟨Place.start.ahead,
      .fault (utf8 "number literal out of range: " ++ digits)⟩ := by
  have hnext := Cursor.next_digits hne h .start
  rw [number_eq, if_neg (Nat.not_lt.mpr hvalue)] at hnext
  rw [tokenize, scan_of_next hnext Lexeme.noConfusion]
  rfl

/-- Digits denote their value in base ten, up to the last that 64 bits hold.  The digits of a
sequence denote it between back quotes, and any bytes denote themselves between double quotes
once they are escaped.  Bytes between single quotes, with neither a quote nor a backslash among
them, denote what the longest start made of pairs of hexadecimal digits spells, whether or not
the form is closed. -/
theorem denotes_literals :
    (∀ digits : Bytes, digits ≠ [] → (∀ byte ∈ digits, Decimal.IsDigit byte) →
      (Decimal.valueOf digits < 2 ^ 64 → Denotes digits (.encode (Decimal.valueOf digits))) ∧
      (2 ^ 64 ≤ Decimal.valueOf digits → tokenize digits = .error ⟨Place.start.ahead,
        .fault (utf8 "number literal out of range: " ++ digits)⟩)) ∧
    (∀ b : BitSeq, b.Canonical → Denotes (0x60 :: (utf8 b.digits ++ [0x60])) b) ∧
    (∀ content : Bytes,
      Denotes (0x22 :: (Quote.text.escape content ++ [0x22])) (.ofBytes content)) ∧
    ∀ body : Bytes, 0x27 ∉ body → 0x5C ∉ body →
      ∃ front bytes, Hex.StartsWith body front bytes ∧
        DenotesWithin (0x27 :: (body ++ [0x27])) (.ofBytes bytes) ∧
        Denotes (0x27 :: (body ++ [0x27])) (.ofBytes bytes) ∧
        Denotes (0x27 :: body) (.ofBytes bytes) := by
  refine ⟨?_, ?_, ?_, ?_⟩
  · intro digits hne hdigits
    exact ⟨denotes_digits hne hdigits, tokenize_digits hne hdigits⟩
  · intro b hb
    have hplain : ∀ byte ∈ utf8 b.digits, ¬ Quote.bits.IsSpecial byte := by
      rw [BitSeq.utf8_digits]
      refine List.forall_mem_map.mpr fun bit _ => ?_
      cases bit <;> decide
    have hdenotes := (denotesWithin_plain .bits hplain).denotes
    rw [Quote.denote, BitSeq.ofDigits_digits hb] at hdenotes
    exact hdenotes
  · intro content
    exact (denotesWithin_spell .text content).denotes
  · intro body hquote hslash
    have hplain : ∀ byte ∈ body, ¬ Quote.hex.IsSpecial byte := by
      rintro byte hmem (rfl | rfl)
      · exact hslash hmem
      · exact hquote hmem
    obtain ⟨front, hfront⟩ := Hex.exists_startsWith body
    have hwithin : DenotesWithin (0x27 :: (body ++ [0x27])) (.ofBytes (Hex.decodePrefix body)) :=
      denotesWithin_plain .hex hplain
    have hopen : Denotes (0x27 :: body) (.ofBytes (Hex.decodePrefix body)) :=
      denotes_open .hex hplain
    exact ⟨front, _, hfront, hwithin, hwithin.denotes, hopen⟩

/-- The largest number that 64 bits hold, with zeros before it, and the number behind it; a text
that is cut off in the middle of an encoding; and digit pairs up to one that is cut off. -/
theorem denotes_literals_boundary :
    Denotes (utf8 "0018446744073709551615") (.encode 18446744073709551615) ∧
      tokenize (utf8 "18446744073709551616") = .error ⟨⟨0, 1, 1⟩,
        .fault (utf8 "number literal out of range: 18446744073709551616")⟩ ∧
      Denotes (utf8 "\x601011\x60") (.ofList [true, false, true, true]) ∧
      Denotes [0x22, 0xE2, 0x5C, 0x5C, 0x80, 0x5C, 0x22, 0x22] (.ofBytes [0xE2, 0x5C, 0x80, 0x22]) ∧
      ∃ front bytes, Hex.StartsWith (utf8 "4aF") front bytes ∧
        Denotes (utf8 "'4aF'") (.ofBytes bytes) ∧ Denotes (utf8 "'4aF") (.ofBytes bytes) := by
  obtain ⟨hdigits, hbits, htext, hhex⟩ := denotes_literals
  have hlargest : Decimal.valueOf (utf8 "0018446744073709551615") = 18446744073709551615 := by
    decide +kernel
  have hbehind : Decimal.valueOf (utf8 "18446744073709551616") = 2 ^ 64 := by
    decide +kernel
  refine ⟨?_, ?_, ?_, htext [0xE2, 0x5C, 0x80, 0x22], ?_⟩
  · have h := (hdigits (utf8 "0018446744073709551615") (by decide +kernel) (by decide +kernel)).1
    rw [hlargest] at h
    exact h (by decide)
  · exact (hdigits _ (by decide +kernel) (by decide +kernel)).2 hbehind.ge
  · exact hbits (.ofList [true, false, true, true]) (BitSeq.canonical_ofList _)
  · obtain ⟨front, bytes, hfront, -, hclosed, hopen⟩ := hhex (utf8 "4aF")
      (by decide +kernel) (by decide +kernel)
    exact ⟨front, bytes, hfront, hclosed, hopen⟩

end Token

end BitLang
