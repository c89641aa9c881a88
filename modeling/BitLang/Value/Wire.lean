/-
# Values on the wire

A value travels as a CBOR map with integer keys: its kind, and for a bit sequence
its length and packed bytes, for a set its entries in order.  Empty parts are left
out.  Functions hold an expression and a scope and do not travel.

Reading is lenient about the spelling: lengths may be unstated, keys unknown or
repeated (the first counts), parts null or missing.  What is read is normalised,
so it can be sent again.
-/

import BitLang.BitSeq.Key
import BitLang.Cbor.Item
import BitLang.Value.Basic

namespace BitLang

/-- Why bytes hold no value. -/
inductive WireError where
  | malformed
  | wrongType
  | unknownKind (code : Nat)
  | misfit (bytes : Nat) (len : Int)
deriving DecidableEq, Repr

namespace WireError

/-- The error in words, for the errors that have any of their own. -/
def message : WireError → String
  | malformed => "wire: malformed value"
  | wrongType => "wire: value of the wrong type"
  | unknownKind code => "wire: unknown value kind " ++ toString code
  | misfit bytes len =>
    "wire: " ++ toString bytes ++ " bytes cannot hold " ++ toString len ++ " bits"

end WireError

namespace Wire

open Cbor

/-- What is reported for a value that does not travel. -/
def notSerializable : String := "wire: functions cannot be serialized"

/-- The numbers of the parts of a value and of an entry. -/
def kindField : Nat := 1
@[inherit_doc kindField] def lenField : Nat := 2
@[inherit_doc kindField] def dataField : Nat := 3
@[inherit_doc kindField] def entriesField : Nat := 4
@[inherit_doc kindField] def keyLenField : Nat := 1
@[inherit_doc kindField] def keyField : Nat := 2
@[inherit_doc kindField] def valueField : Nat := 3

/-- A part of a value, written only if it is there. -/
def part (present : Bool) (number : Nat) (content : Item) : List (Item × Item) :=
  if present then [(.unsigned number, content)] else []

mutual

/-- The item that a value travels as, unless it holds a function. -/
def ofValue? : Value → Option Item
  | .absent => some (.map [(.unsigned kindField, .unsigned Kind.null.code)])
  | .null => some (.map [(.unsigned kindField, .unsigned Kind.null.code)])
  | .bits b => some (.map ((.unsigned kindField, .unsigned Kind.bits.code)
      :: part (b.len != 0) lenField (.unsigned b.len)
      ++ part (!b.bytes.isEmpty) dataField (.bytes b.bytes)))
  | .set ⟨entries, _⟩ => do
    let items ← ofEntries? entries
    some (.map ((.unsigned kindField, .unsigned Kind.set.code)
      :: part (!items.isEmpty) entriesField (.array items)))
  | .function _ _ _ => none

/-- The items that the entries of a set travel as. -/
def ofEntries? : Array (BitSeq × Value) → Option (List Item)
  | ⟨entries⟩ => ofEntryList? entries

/-- The items that a list of entries travels as. -/
def ofEntryList? : List (BitSeq × Value) → Option (List Item)
  | [] => some []
  | (key, value) :: rest => do
    let item ← ofValue? value
    let items ← ofEntryList? rest
    some (.map [(.unsigned keyLenField, .unsigned key.len), (.unsigned keyField, .bytes key.bytes),
      (.unsigned valueField, item)] :: items)

end

/-- A value as it stands on the wire, before its parts are checked against each
other.  Parts that are missing are zero or empty. -/
inductive Node where
  | mk (kind : Nat) (len : Int) (data : Bytes) (entries : List (Int × Bytes × Node))
deriving Repr, Inhabited

namespace Node

/-- The node all of whose parts are missing. -/
def zero : Node := mk 0 0 [] []

end Node

/-- The tags of the natural and the negative numbers without bound. -/
def bignumTag : Nat := 2
@[inherit_doc bignumTag] def negativeBignumTag : Nat := 3

/-- What a tag may stand over: the tag of a date a text, the tag of a time a number,
the tags of the unbounded numbers a byte string, any other tag any item. -/
def admits (number : Nat) : (content : Item) → Bool
  | .text _ => number != 1 && number != bignumTag && number != negativeBignumTag
  | .unsigned _ | .negative _ | .float _ _ =>
    number != 0 && number != bignumTag && number != negativeBignumTag
  | .bytes _ => number != 0 && number != 1
  | _ => 3 < number

/-- The item without its tags, except for the tag of an unbounded number.  All
other tags say nothing that matters here, once they stand over what they may. -/
def untag : Item → Except WireError Item
  | .tag number content =>
    if !admits number content then .error .malformed
    else if number = bignumTag ∨ number = negativeBignumTag then .ok (.tag number content)
    else untag content
  | item => .ok item

/-- Null and undefined leave a part as it is. -/
def isNil : Item → Bool
  | .simple value => value == 22 || value == 23
  | _ => false

/-- An item of the wrong type; a text is first checked to be one. -/
def mismatch {α : Type} : Item → Except WireError α
  | .text chunks => .error (if chunks.all isUtf8 then .wrongType else .malformed)
  | _ => .error .wrongType

/-- The number that an item denotes; unassigned simple values count. -/
def integer? : Item → Option Int
  | .unsigned n => some n
  | .negative n => some (-1 - n)
  | .simple value => if 20 ≤ value ∧ value ≤ 23 then none else some value
  | .tag number (.bytes content) =>
    some (if number = bignumTag then ofBigEndian content else -1 - ofBigEndian content)
  | _ => none

/-- Reads a number from `least` up to `most`; null leaves it zero. -/
def readNumber (least most : Int) (item : Item) : Except WireError Int := do
  let item ← untag item
  if isNil item then .ok 0
  else match integer? item with
    | some n => if least ≤ n ∧ n ≤ most then .ok n else .error .wrongType
    | none => mismatch item

/-- Reads a number below 256; null leaves it zero. -/
def readByte (item : Item) : Except WireError Nat :=
  (readNumber 0 255 item).map Int.toNat

/-- Reads a signed 64-bit number; null leaves it zero. -/
def readInt (item : Item) : Except WireError Int :=
  readNumber (-0x8000000000000000) 0x7FFFFFFFFFFFFFFF item

/-- Reads a byte string, which may come as an array of numbers or under the tag of
an unbounded number; null leaves it empty. -/
def readBytes (item : Item) : Except WireError Bytes := do
  let item ← untag item
  if isNil item then .ok []
  else match item with
    | .bytes content | .tag _ (.bytes content) => .ok content
    | .array items => items.mapM fun item => (readByte item).map UInt8.ofNat
    | _ => mismatch item

/-- The number of the field that a map key names: an integer in signed 64-bit
arithmetic, or its decimal text.  Other texts name none, and other keys are no keys. -/
def fieldOf (key : Item) : Except WireError (Option Int) :=
  match key with
  | .unsigned n => .ok (some (signed64 n))
  | .negative n => if n < 0x8000000000000000 then .ok (some (-1 - n)) else .error .wrongType
  | .text chunks =>
    if chunks.all isUtf8 then
      match chunks.flatten with
      | [digit] => .ok (some ((digit.toNat : Int) - 0x30))
      | _ => .ok none
    else .error .malformed
  | _ => .error .wrongType

mutual

/-- Reads a value. -/
def readNode : Item → Except WireError Node
  | .map pairs => readNodeParts [] .zero pairs
  | .tag number content =>
    if !admits number content then .error .malformed else readNode content
  | item => if isNil item then .ok .zero else mismatch item

/-- Reads the parts of a value onto `node`; parts named in `seen` are passed over. -/
def readNodeParts (seen : List Int) : Node → List (Item × Item) → Except WireError Node
  | node, [] => .ok node
  | .mk kind len data entries, (key, value) :: rest => do
    let name ← fieldOf key
    if name.any seen.contains then readNodeParts seen (.mk kind len data entries) rest
    else match name with
      | some 1 => readNodeParts (1 :: seen) (.mk (← readByte value) len data entries) rest
      | some 2 => readNodeParts (2 :: seen) (.mk kind (← readInt value) data entries) rest
      | some 3 => readNodeParts (3 :: seen) (.mk kind len (← readBytes value) entries) rest
      | some 4 => readNodeParts (4 :: seen) (.mk kind len data (← readEntries value)) rest
      | _ => readNodeParts seen (.mk kind len data entries) rest

/-- Reads the entries of a set; null leaves them empty. -/
def readEntries : Item → Except WireError (List (Int × Bytes × Node))
  | .array items => readEntryList items
  | .tag number content =>
    if !admits number content then .error .malformed else readEntries content
  | item => if isNil item then .ok [] else mismatch item

/-- Reads a list of entries. -/
def readEntryList : List Item → Except WireError (List (Int × Bytes × Node))
  | [] => .ok []
  | item :: items => do
    let entry ← readEntry item
    let entries ← readEntryList items
    .ok (entry :: entries)

/-- Reads one entry. -/
def readEntry : Item → Except WireError (Int × Bytes × Node)
  | .map pairs => readEntryParts [] (0, [], .zero) pairs
  | .tag number content =>
    if !admits number content then .error .malformed else readEntry content
  | item => if isNil item then .ok (0, [], .zero) else mismatch item

/-- Reads the parts of an entry onto `entry`; parts named in `seen` are passed over. -/
def readEntryParts (seen : List Int) : (entry : Int × Bytes × Node) → List (Item × Item) →
    Except WireError (Int × Bytes × Node)
  | entry, [] => .ok entry
  | (len, data, node), (key, value) :: rest => do
    let name ← fieldOf key
    if name.any seen.contains then readEntryParts seen (len, data, node) rest
    else match name with
      | some 1 => readEntryParts (1 :: seen) (← readInt value, data, node) rest
      | some 2 => readEntryParts (2 :: seen) (len, ← readBytes value, node) rest
      | some 3 => readEntryParts (3 :: seen) (len, data, ← readNode value) rest
      | _ => readEntryParts seen (len, data, node) rest

end

/-- The bit sequence of a stated length and the bytes that should hold it. -/
def toBits (len : Int) (data : Bytes) : Except WireError BitSeq :=
  if len < 0 ∨ (data.length : Int) ≠ byteCount64 len then .error (.misfit data.length len)
  else .ok (.ofData data len.toNat)

mutual

/-- The value that a node stands for.  Of entries with the same key the last value
counts, in the place of the first. -/
def toValue : Node → Except WireError Value
  | .mk 0 _ _ _ => .ok .null
  | .mk 1 len data _ => (toBits len data).map .bits
  | .mk 2 _ _ entries => (toEntries .empty entries).map .set
  | .mk kind _ _ _ => .error (.unknownKind kind)

/-- Binds the entries of a node in order. -/
def toEntries : (done : Bindings Value) → List (Int × Bytes × Node) →
    Except WireError (Bindings Value)
  | done, [] => .ok done
  | done, (len, data, node) :: rest => do
    let key ← toBits len data
    let value ← toValue node
    toEntries (done.insert key value) rest

end

end Wire

/-- The bytes that a value travels as, unless it holds a function. -/
def Value.marshal? (v : Value) : Option Bytes := (Wire.ofValue? v).map Cbor.Item.write

/-- The value that bytes hold. -/
def Value.unmarshal (bytes : Bytes) : Except WireError Value :=
  match Cbor.Item.read? bytes with
  | none => .error .malformed
  | some item => Wire.readNode item >>= Wire.toValue

end BitLang
