/-
# Integer numerals

A numeral is an optional sign, an optional prefix that names the base, and digits,
between which single underscores may stand.  Without a prefix the base is ten, or
eight after a leading zero.  Numerals denote signed 64-bit integers.
-/

import BitLang.Text.Bytes

namespace BitLang.Numeral

/-- Why a text denotes no integer. -/
inductive Fault where
  | malformed
  | outOfRange
deriving DecidableEq, Repr

/-- The fault in words. -/
def Fault.describe : Fault → String
  | malformed => "parse error"
  | outOfRange => "value out of range"

/-- The value of a digit in a base up to sixteen. -/
def digit? (base : Nat) (c : Char) : Option Nat :=
  (Hex.digitValue? c.toNat).filter fun value => value < base

/-- Every underscore stands between two digits.  The flag says that a digit, or
something that counts as one, precedes. -/
def isSpaced : (afterDigit : Bool) → List Char → Bool
  | _, [] => true
  | afterDigit, c :: rest =>
    if c = '_' then afterDigit && !rest.isEmpty && isSpaced false rest
    else isSpaced true rest

/-- The number that digits denote, underscores left out. -/
def ofDigits (base : Nat) (digits : List Char) : Nat :=
  (digits.filterMap (digit? base)).foldl (fun value digit => value * base + digit) 0

/-- The base that a numeral without sign is in, its digits, and whether a prefix
names the base. -/
def splitBase : List Char → Nat × List Char × Bool
  | '0' :: rest =>
    match rest with
    | letter :: first :: more =>
      if letter = 'b' ∨ letter = 'B' then (2, first :: more, true)
      else if letter = 'o' ∨ letter = 'O' then (8, first :: more, true)
      else if letter = 'x' ∨ letter = 'X' then (16, first :: more, true)
      else (8, '0' :: rest, false)
    | rest => (8, '0' :: rest, false)
  | digits => (10, digits, false)

/-- Adds digits to a number that has to stay below `2 ^ 64`.  The first digit that
leads out of that range ends the reading. -/
def accumulate (base value : Nat) : List Char → Except Fault Nat
  | [] => .ok value
  | c :: rest =>
    if c = '_' then accumulate base value rest
    else match digit? base c with
      | none => .error .malformed
      | some digit =>
        if 0x10000000000000000 ≤ value * base + digit then .error .outOfRange
        else accumulate base (value * base + digit) rest

/-- The number that a numeral without sign denotes. -/
def magnitude (numeral : List Char) : Except Fault Nat :=
  let (base, digits, hasPrefix) := splitBase numeral
  if digits.isEmpty then .error .malformed
  else match accumulate base 0 digits with
    | .error fault => .error fault
    | .ok value => if isSpaced hasPrefix digits then .ok value else .error .malformed

/-- The integer with a sign and a magnitude, if 64 bits can hold it. -/
def signed (isNegative : Bool) (value : Nat) : Except Fault Int :=
  if isNegative then if value ≤ 0x8000000000000000 then .ok (-value) else .error .outOfRange
  else if value < 0x8000000000000000 then .ok value else .error .outOfRange

/-- The integer that a numeral denotes.  No byte outside ASCII is a digit. -/
def read (text : Bytes) : Except Fault Int :=
  match text.map fun byte => Char.ofNat byte.toNat with
  | '-' :: rest => magnitude rest >>= signed true
  | '+' :: rest => magnitude rest >>= signed false
  | numeral => magnitude numeral >>= signed false

end BitLang.Numeral
