/-
# TOML documents as written

A TOML document is a sequence of statements: a header that opens a table, a header
that opens one more element of an array of tables, or an assignment.  Keys are
paths of names.  What the statements together define, and whether they contradict
each other, is another matter.
-/

import BitLang.Text.Bytes

namespace BitLang.Toml

/-- A path of names. -/
abbrev Key := List String

/-- A value as written.  Numbers with a fraction or an exponent, dates and times
keep their spelling. -/
inductive Value where
  | integer (value : Int)
  | float (spelling : String)
  | boolean (value : Bool)
  | moment (spelling : String)
  | string (text : String)
  | array (items : List Value)
  | table (fields : List (Key × Value))
deriving Repr, Inhabited

/-- A statement of a document. -/
inductive Statement where
  | table (key : Key)
  | element (key : Key)
  | assign (key : Key) (value : Value)
deriving Repr

/-- A character that a name may hold without quotes. -/
def isBare (c : Char) : Bool := c.isAlphanum || c == '_' || c == '-'

/-- A character of a quoted name. -/
def escape (c : Char) : List Char :=
  if c = '"' ∨ c = '\\' then ['\\', c]
  else if c = '\x08' then ['\\', 'b']
  else if c = '\t' then ['\\', 't']
  else if c = '\n' then ['\\', 'n']
  else if c = '\x0c' then ['\\', 'f']
  else if c = '\r' then ['\\', 'r']
  else if c.toNat < 0x20 ∨ c.toNat = 0x7F then '\\' :: 'u' :: Hex.ofNat 4 c.toNat
  else [c]

/-- A name, in quotes unless it is bare. -/
def renderName (name : String) : String :=
  if name ≠ "" ∧ name.toList.all isBare then name
  else String.ofList ('"' :: (name.toList.flatMap escape ++ ['"']))

/-- A key, its names separated by dots. -/
def renderKey (key : Key) : String := ".".intercalate (key.map renderName)

end BitLang.Toml
