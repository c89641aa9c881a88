/-
# Reading TOML

The text of a document is read into its statements.  The grammar is that of TOML
1.1: inline tables may span lines and end in a comma, and the escapes `\e` and
`\xHH` stand for characters.  A text that is not UTF-8, or holds a control
character other than a tab or the end of a line, is no document at all.
-/

import BitLang.Text.Rune
import BitLang.Toml.Scalar

namespace BitLang.Toml

/-- A blank within a line. -/
def isBlank (c : Char) : Bool := c == ' ' || c == '\t'

/-- A character of the end of a line. -/
def isLineEnd (c : Char) : Bool := c == '\n' || c == '\r'

/-- Every control character is a tab or ends a line, and a carriage return is
followed by a line feed. -/
def isClean : List Char → Bool
  | [] => true
  | c :: rest =>
    (if c = '\r' then rest.head? == some '\n'
      else c == '\t' || c == '\n' || (0x20 ≤ c.toNat && c.toNat != 0x7F))
      && isClean rest

/-- The text without a byte order mark. -/
def withoutMark (text : Bytes) : Bytes :=
  match text with
  | 0xEF :: 0xBB :: 0xBF :: rest => rest
  | 0xFF :: 0xFE :: rest => rest
  | 0xFE :: 0xFF :: rest => rest
  | text => text

/-- The characters of a document. -/
def characters? (text : Bytes) : Option (List Char) :=
  let text := withoutMark text
  let characters := (Rune.list text).map fun rune => Char.ofNat rune.code
  if isUtf8 text ∧ isClean characters then some characters else none

/-- What follows blanks. -/
def skipBlanks (text : List Char) : List Char := text.dropWhile isBlank

/-- What follows blanks, ends of lines and comments.  The flag says that a comment
has begun. -/
def skipFrom : (inComment : Bool) → List Char → List Char
  | _, [] => []
  | true, c :: rest => skipFrom (c != '\n') rest
  | false, c :: rest =>
    if c = '#' then skipFrom true rest
    else if isBlank c || isLineEnd c then skipFrom false rest
    else c :: rest

/-- What follows blanks, ends of lines and comments. -/
def skip (text : List Char) : List Char := skipFrom false text

/-- What follows the end of the line, which only a comment may put off. -/
def afterLine? (text : List Char) : Option (List Char) :=
  match skipBlanks text with
  | [] => some []
  | c :: rest =>
    if c = '#' then some (rest.dropWhile (· != '\n'))
    else if isLineEnd c then some rest
    else none

/-- The character with the code that the first `width` digits spell. -/
def codePoint? (width : Nat) (text : List Char) : Option (Char × List Char) :=
  let digits := text.take width
  let code := Numeral.ofDigits 16 digits
  if digits.length = width ∧ digits.all (fun c => (Numeral.digit? 16 c).isSome)
      ∧ code.isValidChar then
    some (Char.ofNat code, text.drop width)
  else none

/-- The character that an escape stands for, from behind its backslash. -/
def escaped? : List Char → Option (Char × List Char)
  | [] => none
  | c :: rest =>
    if c = '"' ∨ c = '\\' then some (c, rest)
    else if c = 'b' then some ('\x08', rest)
    else if c = 't' then some ('\t', rest)
    else if c = 'n' then some ('\n', rest)
    else if c = 'f' then some ('\x0c', rest)
    else if c = 'r' then some ('\r', rest)
    else if c = 'e' then some ('\x1b', rest)
    else if c = 'x' then codePoint? 2 rest
    else if c = 'u' then codePoint? 4 rest
    else if c = 'U' then codePoint? 8 rest
    else none

/-- The text up to a double quote on the same line, with escapes. -/
def basicText : (fuel : Nat) → List Char → Option (List Char × List Char)
  | 0, _ => none
  | _, [] => none
  | fuel + 1, c :: rest =>
    if c = '"' then some ([], rest)
    else if isLineEnd c then none
    else do
      let (c, rest) ← if c = '\\' then escaped? rest else some (c, rest)
      let (text, rest) ← basicText fuel rest
      some (c :: text, rest)

/-- The text up to a single quote on the same line, taken literally. -/
def literalText (text : List Char) : Option (List Char × List Char) :=
  let inside := text.takeWhile fun c => c != '\'' && !isLineEnd c
  match text.drop inside.length with
  | '\'' :: rest => some (inside, rest)
  | _ => none

/-- The text without an end of line at its start. -/
def withoutLineEnd : List Char → List Char
  | '\n' :: rest => rest
  | '\r' :: '\n' :: rest => rest
  | text => text

/-- The text of several lines up to three quotes.  A few more quotes before them
belong to the text, `spare` at most: two, or three behind an escaped backslash.  In a
text with escapes, a backslash at the end of a line takes away all space up to the
next character. -/
def longText (quote : Char) (hasEscapes : Bool) :
    (fuel spare : Nat) → List Char → Option (List Char × List Char)
  | 0, _, _ => none
  | _, _, [] => none
  | fuel + 1, spare, c :: rest =>
    if c = quote then
      let quotes := (c :: rest).takeWhile (· == quote)
      let rest := (c :: rest).drop quotes.length
      if quotes.length < 3 then do
        let (text, rest) ← longText quote hasEscapes fuel 2 rest
        some (quotes ++ text, rest)
      else if quotes.length ≤ 3 + spare then some (quotes.drop 3, rest)
      else none
    else if c = '\\' ∧ hasEscapes then
      let space := rest.takeWhile fun c => isBlank c || isLineEnd c
      if space.contains '\n' then longText quote hasEscapes fuel 2 (rest.drop space.length)
      else do
        let spare := if rest.head? = some '\\' then 3 else 2
        let (c, rest) ← escaped? rest
        let (text, rest) ← longText quote hasEscapes fuel spare rest
        some (c :: text, rest)
    else do
      let (text, rest) ← longText quote hasEscapes fuel 2 rest
      some (c :: text, rest)

/-- One name of a key. -/
def name? (text : List Char) : Option (String × List Char) :=
  match text with
  | '"' :: rest => (basicText (rest.length + 1) rest).map fun (name, rest) => (.ofList name, rest)
  | '\'' :: rest => (literalText rest).map fun (name, rest) => (.ofList name, rest)
  | text =>
    let name := text.takeWhile isBare
    if name.isEmpty then none else some (.ofList name, text.drop name.length)

/-- A key: names with dots between them, and blanks around each. -/
def keyFrom : (fuel : Nat) → List Char → Option (Key × List Char)
  | 0, _ => none
  | fuel + 1, text => do
    let (name, rest) ← name? (skipBlanks text)
    match skipBlanks rest with
    | '.' :: rest => do
      let (names, rest) ← keyFrom fuel rest
      some (name :: names, rest)
    | rest => some ([name], rest)

/-- A key at the start of a text. -/
def key? (text : List Char) : Option (Key × List Char) := keyFrom (text.length + 1) text

/-- A text value, if one starts here. -/
def text? (text : List Char) : Option (List Char × List Char) :=
  match text with
  | '"' :: '"' :: '"' :: rest => longText '"' true (rest.length + 1) 2 (withoutLineEnd rest)
  | '"' :: rest => basicText (rest.length + 1) rest
  | '\'' :: '\'' :: '\'' :: rest => longText '\'' false (rest.length + 1) 2 (withoutLineEnd rest)
  | '\'' :: rest => literalText rest
  | _ => none

/-- A character of a word. -/
def isWordChar (c : Char) : Bool := isBare c || c == '+' || c == '.' || c == ':'

/-- The word at the start of a text.  A date and a time with a blank between them
are one word. -/
def word (text : List Char) : List Char × List Char :=
  let first := text.takeWhile isWordChar
  let rest := text.drop first.length
  match rest with
  | ' ' :: time =>
    if afterDate? first = some [] ∧ (time.head?.any Char.isDigit) then
      let second := time.takeWhile isWordChar
      (first ++ ' ' :: second, time.drop second.length)
    else (first, rest)
  | rest => (first, rest)

mutual

/-- A value at the start of a text. -/
def value : (fuel : Nat) → List Char → Option (Value × List Char)
  | 0, _ => none
  | fuel + 1, text =>
    match text with
    | '[' :: rest => (items fuel rest).map fun (items, rest) => (.array items, rest)
    | '\x7b' :: rest => (fields fuel rest).map fun (fields, rest) => (.table fields, rest)
    | text =>
      if text.head? = some '"' ∨ text.head? = some '\'' then
        (text? text).map fun (text, rest) => (.string (.ofList text), rest)
      else
        let (word, rest) := word text
        (Value.ofWord? word).map fun value => (value, rest)

/-- The items of an array, up to its closing bracket. -/
def items : (fuel : Nat) → List Char → Option (List Value × List Char)
  | 0, _ => none
  | fuel + 1, text =>
    match skip text with
    | ']' :: rest => some ([], rest)
    | text => do
      let (item, rest) ← value fuel text
      match skip rest with
      | ']' :: rest => some ([item], rest)
      | ',' :: rest => do
        let (others, rest) ← items fuel rest
        some (item :: others, rest)
      | _ => none

/-- The fields of an inline table, up to its closing brace. -/
def fields : (fuel : Nat) → List Char → Option (List (Key × Value) × List Char)
  | 0, _ => none
  | fuel + 1, text =>
    match skip text with
    | '\x7d' :: rest => some ([], rest)
    | text => do
      let (key, rest) ← key? text
      let rest ← after? '=' rest
      let (value, rest) ← value fuel (skipBlanks rest)
      match skip rest with
      | '\x7d' :: rest => some ([(key, value)], rest)
      | ',' :: rest => do
        let (others, rest) ← fields fuel rest
        some ((key, value) :: others, rest)
      | _ => none

end

/-- A statement at the start of a text. -/
def statement? (text : List Char) : Option (Statement × List Char) :=
  match text with
  | '[' :: '[' :: rest => do
    let (key, rest) ← key? rest
    let rest ← after? ']' (← after? ']' rest)
    some (.element key, rest)
  | '[' :: rest => do
    let (key, rest) ← key? rest
    let rest ← after? ']' rest
    some (.table key, rest)
  | text => do
    let (key, rest) ← key? text
    let rest ← after? '=' rest
    let (value, rest) ← value (rest.length + 1) (skipBlanks rest)
    some (.assign key value, rest)

/-- The statements of a text, each on lines of its own. -/
def statementsFrom : (fuel : Nat) → List Char → Option (List Statement)
  | 0, _ => none
  | fuel + 1, text =>
    match skip text with
    | [] => some []
    | text => do
      let (statement, rest) ← statement? text
      let others ← statementsFrom fuel (← afterLine? rest)
      some (statement :: others)

/-- The statements of a document, or nothing if the text is none. -/
def statements? (text : Bytes) : Option (List Statement) := do
  let characters ← characters? text
  statementsFrom (characters.length + 1) characters

end BitLang.Toml
