/-
# TOML scalars

A value that is neither text nor a collection is a word: a truth value, an integer,
a number with a fraction or an exponent, or a date and time.  Each has a grammar of
its own, and a number has to fit: integers into 64 bits, other numbers into the
range of double precision.
-/

import BitLang.Text.Numeral
import BitLang.Toml.Basic

namespace BitLang.Toml

/-- Takes a sign off a number: whether it is negative, and the rest. -/
def unsign : List Char → Bool × List Char
  | '-' :: rest => (true, rest)
  | '+' :: rest => (false, rest)
  | word => (false, word)

/-- Digits of a base, with single underscores only between them. -/
def areDigits (base : Nat) (word : List Char) : Bool :=
  !word.isEmpty && word.all (fun c => c == '_' || (Numeral.digit? base c).isSome)
    && Numeral.isSpaced false word

/-- Decimal digits that start with a zero only if they are just that. -/
def isWhole (word : List Char) : Bool :=
  areDigits 10 word && (word.head? != some '0' || word.length == 1)

/-- An integer in a base that a prefix names. -/
def based? (base : Nat) (digits : List Char) : Option Int :=
  if areDigits base digits then (Numeral.signed false (Numeral.ofDigits base digits)).toOption
  else none

/-- The integer that a word denotes. -/
def integer? (word : List Char) : Option Int :=
  match word with
  | '0' :: 'x' :: digits => based? 16 digits
  | '0' :: 'o' :: digits => based? 8 digits
  | '0' :: 'b' :: digits => based? 2 digits
  | word =>
    let (isNegative, digits) := unsign word
    if isWhole digits then (Numeral.signed isNegative (Numeral.ofDigits 10 digits)).toOption
    else none

/-- The least number that rounds to more than any double: half a step above the
largest one. -/
def doubleBound : Nat := 1 <<< 1024 - 1 <<< 970

/-- The number `mantissa * 10 ^ exponent` is in the range of double precision.
Its decimal length decides unless that is the length of the bound. -/
def isDouble (mantissa : Nat) (exponent : Int) : Bool :=
  let length := (Nat.toDigits 10 mantissa).length + exponent
  if mantissa = 0 ∨ length < 309 then true
  else if 309 < length then false
  else decide (mantissa * Nat.pow 10 exponent.toNat < doubleBound * Nat.pow 10 (-exponent).toNat)

/-- The word denotes a number with a fraction, an exponent or both, or one of the
two that are not finite. -/
def isFloat (word : List Char) : Bool :=
  let body := (unsign word).2
  let isMark (c : Char) : Bool := c == 'e' || c == 'E'
  let mantissa := body.takeWhile fun c => !isMark c
  let power := body.drop mantissa.length
  let whole := mantissa.takeWhile (· != '.')
  let fraction := mantissa.drop whole.length
  let (powerNegative, powerDigits) := unsign power.tail
  let isFinite :=
    isWhole whole
      && (fraction.isEmpty || areDigits 10 fraction.tail)
      && (power.isEmpty || areDigits 10 powerDigits)
      && !(fraction.isEmpty && power.isEmpty)
  let powerSize : Int := Numeral.ofDigits 10 powerDigits
  let shift : Int := (fraction.tail.filter (· != '_')).length
  let exponent := (if powerNegative then -powerSize else powerSize) - shift
  body == ['i', 'n', 'f'] || body == ['n', 'a', 'n']
    || (isFinite && isDouble (Numeral.ofDigits 10 (whole ++ fraction.tail)) exponent)

/-- The number that the first `width` characters denote, all of them digits, and
what follows. -/
def fixed? (width : Nat) (word : List Char) : Option (Nat × List Char) :=
  let digits := word.take width
  if digits.length = width ∧ digits.all Char.isDigit then
    some (Numeral.ofDigits 10 digits, word.drop width)
  else none

/-- What follows a given character. -/
def after? (c : Char) (word : List Char) : Option (List Char) :=
  if word.head? = some c then some word.tail else none

/-- The number of days of a month. -/
def daysIn (year month : Nat) : Nat :=
  if month = 2 then
    if year % 4 = 0 ∧ (year % 100 ≠ 0 ∨ year % 400 = 0) then 29 else 28
  else if month = 4 ∨ month = 6 ∨ month = 9 ∨ month = 11 then 30 else 31

/-- What follows a date. -/
def afterDate? (word : List Char) : Option (List Char) := do
  let (year, word) ← fixed? 4 word
  let (month, word) ← fixed? 2 (← after? '-' word)
  let (day, word) ← fixed? 2 (← after? '-' word)
  if 1 ≤ month ∧ month ≤ 12 ∧ 1 ≤ day ∧ day ≤ daysIn year month then some word else none

/-- What follows a fraction of a second, which may be missing. -/
def afterFraction? (word : List Char) : Option (List Char) :=
  match word with
  | '.' :: digits =>
    if (digits.takeWhile Char.isDigit).isEmpty then none else some (digits.dropWhile Char.isDigit)
  | word => some word

/-- What follows a time of day, whose seconds may be missing. -/
def afterTime? (word : List Char) : Option (List Char) := do
  let (hour, word) ← fixed? 2 word
  let (minute, word) ← fixed? 2 (← after? ':' word)
  if 24 ≤ hour ∨ 60 ≤ minute then none
  else match after? ':' word with
    | none => some word
    | some word => do
      let (second, word) ← fixed? 2 word
      if 60 ≤ second then none else afterFraction? word

/-- What follows an offset from universal time, which may be missing. -/
def afterOffset? (word : List Char) : Option (List Char) :=
  match word with
  | [] => some []
  | sign :: rest =>
    if sign = 'Z' ∨ sign = 'z' then some rest
    else if sign = '+' ∨ sign = '-' then do
      let (hours, rest) ← fixed? 2 rest
      let (minutes, rest) ← fixed? 2 (← after? ':' rest)
      if hours ≤ 24 ∧ minutes ≤ 60 then some rest else none
    else none

/-- The word denotes a date, a time of day, or both with or without an offset. -/
def isMoment (word : List Char) : Bool :=
  match afterDate? word with
  | some [] => true
  | some (separator :: time) =>
    (separator == 'T' || separator == 't' || separator == ' ')
      && (afterTime? time >>= afterOffset?) == some []
  | none => afterTime? word == some []

/-- The value that a word denotes. -/
def Value.ofWord? (word : List Char) : Option Value :=
  if word = ['t', 'r', 'u', 'e'] then some (.boolean true)
  else if word = ['f', 'a', 'l', 's', 'e'] then some (.boolean false)
  else match integer? word with
    | some value => some (.integer value)
    | none =>
      if isFloat word then some (.float (String.ofList word))
      else if isMoment word then some (.moment (String.ofList word))
      else none

end BitLang.Toml
