/-
# Inspection

An inspection is what is shown of a value: a bit sequence by its digits, its bytes
and, where they are printable text, that text; a set by its size and its first
entries, down to a limited depth; a function by its pattern.
-/

import BitLang.Text.Quoted
import BitLang.Value.Basic

namespace BitLang

/-- What is shown of a value. -/
inductive Inspection where
  | null
  | bits (bits : BitSeq)
  | set (size : Nat) (entries : List (BitSeq × Inspection))
  | function (pattern : BitSeq)
deriving Repr, Inhabited

namespace BitSeq

/-- How many bits are shown as digits. -/
def shownBits : Nat := 128

/-- The digits between back quotes, cut off where there are too many. -/
def preview (b : BitSeq) : String :=
  if b.len ≤ shownBits then "\x60" ++ b.digits ++ "\x60"
  else "\x60" ++ (b.slice 0 shownBits).digits ++ "...\x60"

/-- A code point that printable text may hold: no control character but newline
and tab, and not the replacement character. -/
def isTextual (code : Nat) : Bool :=
  (0x20 ≤ code || code == 0x0A || code == 0x09) && code != 0x7F && code != Rune.replacement

/-- The bytes as text, if they are whole bytes of printable text. -/
def text? (b : BitSeq) : Option Bytes :=
  if 0 < b.len ∧ b.len % 8 = 0 ∧ (Rune.list b.bytes).all fun rune => isTextual rune.code then
    some b.bytes
  else none

/-- The short form of a bit sequence: its text, or else its digits. -/
def label (b : BitSeq) : String :=
  match b.text? with
  | some text => Quoted.quote text
  | none => b.preview

end BitSeq

namespace Inspection

/-- How many entries of a set are shown. -/
def shownEntries : Nat := 10

/-- How many levels of nested sets are shown unless another depth is asked for. -/
def defaultDepth : Nat := 3

/-- Looks at a value, and at the entries of sets down to the given depth. -/
def ofValue : (depth : Nat) → Value → Inspection
  | _, .absent => null
  | _, .null => null
  | _, .bits b => bits b
  | _, .function _ pattern _ => function pattern
  | 0, .set s => set s.size []
  | depth + 1, .set s =>
    set s.size ((s.toList.take shownEntries).map fun (key, value) => (key, ofValue depth value))

/-- The kind of the value looked at. -/
def kind : Inspection → Kind
  | null => .null
  | bits _ => .bits
  | set _ _ => .set
  | function _ => .function

/-- The value on one line. -/
def summary : Inspection → String
  | null => "null"
  | bits b => b.preview
  | set size _ => "\x7b" ++ toString size ++ " entries\x7d"
  | function pattern => "<function " ++ pattern.preview ++ ">"

/-- The number of bits or of entries. -/
def size : Inspection → Nat
  | bits b => b.len
  | set size _ => size
  | _ => 0

/-- The packed bytes of a bit sequence in hexadecimal. -/
def hex : Inspection → String
  | bits b => Hex.encode b.bytes
  | _ => ""

/-- The text of a bit sequence that has one. -/
def text? : Inspection → Option Bytes
  | bits b => b.text?
  | _ => none

/-- The entries that are shown. -/
def entries : Inspection → List (BitSeq × Inspection)
  | set _ entries => entries
  | _ => []

/-- The short form used for entries. -/
def label : Inspection → String
  | bits b => b.label
  | other => other.summary

/-- The first line: kind, summary and, for a bit sequence, size, bytes and text. -/
def header (i : Inspection) : String :=
  let more := match i with
    | bits b =>
      " len=" ++ toString b.len
        ++ (if b.bytes.isEmpty then "" else " hex=" ++ i.hex)
        ++ (match b.text? with
          | some text => " text=" ++ Quoted.quote text
          | none => "")
    | _ => ""
  i.kind.name ++ "(" ++ toString i.kind.code ++ "): " ++ i.summary ++ more ++ "\n"

/-- The first line and one line for each entry shown. -/
def render (i : Inspection) : String :=
  i.header ++ String.join (i.entries.zipIdx.map fun ((key, value), n) =>
    "  [" ++ toString n ++ "] " ++ key.label ++ " = " ++ value.label ++ "\n")

/-- `indent` steps of two spaces. -/
def margin (indent : Nat) : String := String.ofList (List.replicate (2 * indent) ' ')

mutual

/-- All lines, entries nested below their sets. -/
def prettyAt (indent : Nat) : Inspection → String
  | null => margin indent ++ null.header
  | bits b => margin indent ++ (bits b).header
  | function pattern => margin indent ++ (function pattern).header
  | set size entries =>
    let shown := entries.length
    margin indent ++ (set size entries).header
      ++ (if shown < size ∧ 0 < shown then
          margin indent ++ "  entries (showing " ++ toString shown ++ " of " ++ toString size
            ++ "):\n"
        else "")
      ++ prettyEntries indent entries

/-- The lines of the entries of a set. -/
def prettyEntries (indent : Nat) : List (BitSeq × Inspection) → String
  | [] => ""
  | (key, value) :: rest =>
    margin indent ++ "  key " ++ key.label ++ ":\n" ++ value.prettyAt (indent + 2)
      ++ prettyEntries indent rest

end

/-- The whole inspection, one line for each value shown. -/
def pretty (i : Inspection) : String := i.prettyAt 0

end Inspection

/-- A value as it is printed for a reader. -/
def Value.format (v : Value) : String := (Inspection.ofValue Inspection.defaultDepth v).pretty

end BitLang
