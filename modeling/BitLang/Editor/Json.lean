/-
# JSON

Editors talk to the program in JSON.  Numbers keep their spelling, and the members
of an object their order.  Text is written so that it can stand inside a web page:
angle brackets, ampersands and the two line separators are escaped.
-/

import BitLang.Text.CaseFold
import BitLang.Text.Rune

namespace BitLang.Editor

/-- A JSON value. -/
inductive Json where
  | null
  | bool (value : Bool)
  | number (spelling : String)
  | string (text : String)
  | array (items : List Json)
  | object (members : List (String × Json))
deriving Repr, Inhabited

namespace Json

/-- The characters of a text; a byte outside any encoding reads as the replacement
character. -/
def charactersOf (text : Bytes) : List Char :=
  (Rune.list text).map fun rune => Char.ofNat rune.code

/-- A text as a value. -/
def ofText (text : Bytes) : Json := .string (.ofList (charactersOf text))

/-- A number as a value. -/
def ofNat (n : Nat) : Json := .number (toString n)

/-- A character of a string. -/
def escape (c : Char) : List Char :=
  if c = '"' ∨ c = '\\' then ['\\', c]
  else if c = '\x08' then ['\\', 'b']
  else if c = '\x0c' then ['\\', 'f']
  else if c = '\n' then ['\\', 'n']
  else if c = '\r' then ['\\', 'r']
  else if c = '\t' then ['\\', 't']
  else if c.toNat < 0x20 ∨ c = '<' ∨ c = '>' ∨ c = '&' ∨ c = '\u2028' ∨ c = '\u2029' then
    '\\' :: 'u' :: Hex.ofNat 4 c.toNat
  else [c]

/-- A string in quotes. -/
def renderString (text : String) : String :=
  String.ofList ('"' :: (text.toList.flatMap escape ++ ['"']))

mutual

/-- The value as text, without blanks. -/
def render : Json → String
  | null => "null"
  | bool value => if value then "true" else "false"
  | number spelling => spelling
  | string text => renderString text
  | array items => "[" ++ ",".intercalate (renderItems items) ++ "]"
  | object members => "\x7b" ++ ",".intercalate (renderMembers members) ++ "\x7d"

/-- The items of an array as texts. -/
def renderItems : List Json → List String
  | [] => []
  | item :: items => item.render :: renderItems items

/-- The members of an object as texts. -/
def renderMembers : List (String × Json) → List String
  | [] => []
  | (name, value) :: members => (renderString name ++ ":" ++ value.render) :: renderMembers members

end

/-- What follows white space. -/
def skip (text : List Char) : List Char :=
  text.dropWhile fun c => c == ' ' || c == '\t' || c == '\n' || c == '\r'

/-- The code unit that four digits spell. -/
def unit? (text : List Char) : Option (Nat × List Char) := do
  let digits ← (text.take 4).mapM fun c => Hex.digitValue? c.toNat
  if digits.length = 4 then
    some (digits.foldl (fun value digit => 16 * value + digit) 0, text.drop 4)
  else none

/-- The character that an escaped code unit stands for, together with a second one
if the two are a pair of surrogates.  A surrogate alone reads as the replacement
character. -/
def unitCharacter? (text : List Char) : Option (Char × List Char) := do
  let (first, rest) ← unit? text
  match rest with
  | '\\' :: 'u' :: more =>
    match unit? more with
    | some (second, after) =>
      if 0xD800 ≤ first ∧ first < 0xDC00 ∧ 0xDC00 ≤ second ∧ second < 0xE000 then
        some (Char.ofNat (0x10000 + (first - 0xD800) * 0x400 + (second - 0xDC00)), after)
      else some (single first, rest)
    | none => some (single first, rest)
  | rest => some (single first, rest)
where
  single (code : Nat) : Char :=
    if code.isValidChar then Char.ofNat code else Char.ofNat Rune.replacement

/-- The character that an escape stands for, from behind its backslash. -/
def escaped? : List Char → Option (Char × List Char)
  | [] => none
  | c :: rest =>
    if c = '"' ∨ c = '\\' ∨ c = '/' then some (c, rest)
    else if c = 'b' then some ('\x08', rest)
    else if c = 'f' then some ('\x0c', rest)
    else if c = 'n' then some ('\n', rest)
    else if c = 'r' then some ('\r', rest)
    else if c = 't' then some ('\t', rest)
    else if c = 'u' then unitCharacter? rest
    else none

/-- The text up to a quote. -/
def readString? : (fuel : Nat) → (done : List Char) → List Char → Option (String × List Char)
  | 0, _, _ => none
  | _, _, [] => none
  | fuel + 1, done, c :: rest =>
    if c = '"' then some (.ofList done.reverse, rest)
    else if c.toNat < 0x20 then none
    else do
      let (c, rest) ← if c = '\\' then escaped? rest else some (c, rest)
      readString? fuel (c :: done) rest

/-- Decimal digits, at least one. -/
def areDigits (text : List Char) : Bool := !text.isEmpty && text.all Char.isDigit

/-- The spelling of a number: digits without a superfluous zero, and possibly a
fraction and an exponent. -/
def isNumber (spelling : List Char) : Bool :=
  let body := if spelling.head? = some '-' then spelling.tail else spelling
  let whole := body.takeWhile Char.isDigit
  let rest := body.drop whole.length
  let fraction := if rest.head? = some '.' then rest.tail.takeWhile Char.isDigit else []
  let power := if rest.head? = some '.' then rest.drop (fraction.length + 1) else rest
  let exponent := if power.tail.head? = some '+' ∨ power.tail.head? = some '-' then power.tail.tail
    else power.tail
  areDigits whole && (whole.length == 1 || whole.head? != some '0')
    && (rest.head? != some '.' || areDigits fraction)
    && (power.isEmpty || ((power.head? == some 'e' || power.head? == some 'E') && areDigits exponent))

/-- A value that is a word: a number, a truth value or null. -/
def readWord? (text : List Char) : Option (Json × List Char) :=
  let word := text.takeWhile fun c => c.isAlphanum || c == '+' || c == '-' || c == '.'
  let rest := text.drop word.length
  if word = ['n', 'u', 'l', 'l'] then some (null, rest)
  else if word = ['t', 'r', 'u', 'e'] then some (bool true, rest)
  else if word = ['f', 'a', 'l', 's', 'e'] then some (bool false, rest)
  else if isNumber word then some (number (.ofList word), rest)
  else none

/-- How deeply arrays and objects may nest. -/
def maxNesting : Nat := 10000

mutual

/-- A value at the start of a text, inside `depth` arrays and objects. -/
def readValue? : (fuel depth : Nat) → List Char → Option (Json × List Char)
  | 0, _, _ => none
  | fuel + 1, depth, text =>
    match skip text with
    | '"' :: rest =>
      (readString? (rest.length + 1) [] rest).map fun (text, rest) => (string text, rest)
    | '[' :: rest =>
      if maxNesting ≤ depth then none
      else match skip rest with
        | ']' :: rest => some (array [], rest)
        | rest => (readItems? fuel (depth + 1) rest).map fun (items, rest) => (array items, rest)
    | '\x7b' :: rest =>
      if maxNesting ≤ depth then none
      else match skip rest with
        | '\x7d' :: rest => some (object [], rest)
        | rest =>
          (readMembers? fuel (depth + 1) rest).map fun (members, rest) => (object members, rest)
    | text => readWord? text

/-- The items of an array, at least one, up to the closing bracket. -/
def readItems? : (fuel depth : Nat) → List Char → Option (List Json × List Char)
  | 0, _, _ => none
  | fuel + 1, depth, text => do
    let (item, rest) ← readValue? fuel depth text
    match skip rest with
    | ']' :: rest => some ([item], rest)
    | ',' :: rest => do
      let (items, rest) ← readItems? fuel depth rest
      some (item :: items, rest)
    | _ => none

/-- The members of an object, at least one, up to the closing brace. -/
def readMembers? : (fuel depth : Nat) → List Char → Option (List (String × Json) × List Char)
  | 0, _, _ => none
  | fuel + 1, depth, text =>
    match skip text with
    | '"' :: rest => do
      let (name, rest) ← readString? (rest.length + 1) [] rest
      match skip rest with
      | ':' :: rest => do
        let (value, rest) ← readValue? fuel depth rest
        match skip rest with
        | '\x7d' :: rest => some ([(name, value)], rest)
        | ',' :: rest => do
          let (members, rest) ← readMembers? fuel depth rest
          some ((name, value) :: members, rest)
        | _ => none
      | _ => none
    | _ => none

end

/-- The value that a text starts with. -/
def read? (text : Bytes) : Option Json :=
  let characters := charactersOf text
  (readValue? (characters.length + 1) 0 characters).map Prod.fst

/-- The last member of an object with a given name. -/
def member? (name : String) : Json → Option Json
  | object members => members.reverse.lookup name
  | _ => none

/-- The member at the end of a path of names. -/
def at? (value : Json) : (path : List String) → Option Json
  | [] => some value
  | name :: rest => do (← value.member? name).at? rest

/-- The members of an object whose names equal a given one but for case, in order. -/
def membersLike (name : String) : Json → List Json
  | object members => (members.filter fun (other, _) => sameName other name).map Prod.snd
  | _ => []

/-- Puts a member into a list that is sorted by name, in the place of one with the
same name. -/
def insertMember (name : String) (value : Json) : List (String × Json) → List (String × Json)
  | [] => [(name, value)]
  | (other, old) :: rest =>
    if name = other then (name, value) :: rest
    else if name < other then (name, value) :: (other, old) :: rest
    else (other, old) :: insertMember name value rest

mutual

/-- The value with the members of all objects sorted by name, the last of each name
alone. -/
def canonical : Json → Json
  | array items => array (canonicalItems items)
  | object members => object (canonicalMembers [] members)
  | value => value

/-- The canonical forms of items. -/
def canonicalItems : List Json → List Json
  | [] => []
  | item :: items => item.canonical :: canonicalItems items

/-- Sorts members into those that are `done`. -/
def canonicalMembers (done : List (String × Json)) : List (String × Json) → List (String × Json)
  | [] => done
  | (name, value) :: rest => canonicalMembers (insertMember name value.canonical done) rest

end

/-- The text of a string. -/
def text? : Json → Option String
  | string text => some text
  | _ => none

end Json

end BitLang.Editor
