/-
# Where a store is kept

The path of a store names its file.  A question mark in the path ends the name, and
what follows are options: names and values with an equals sign between them, joined
by ampersands, in which a plus sign stands for a blank and a percent sign for the
byte of two hexadecimal digits.  Of the options only the one that selects a file
layer matters here.
-/

import BitLang.Text.Bytes

namespace BitLang.StoreLocation

/-- The bytes that an option spells, unless a percent sign lacks its digits. -/
def unescape? : Bytes → Option Bytes
  | [] => some []
  | 0x25 :: high :: low :: rest => do
    let high ← Hex.digitValue? high.toNat
    let low ← Hex.digitValue? low.toNat
    some (UInt8.ofNat (16 * high + low) :: (← unescape? rest))
  | byte :: rest =>
    if byte = 0x25 then none
    else do some ((if byte = 0x2B then 0x20 else byte) :: (← unescape? rest))

/-- The name and the value of one option.  A semicolon separates nothing and may not
stand in one. -/
def option? (text : Bytes) : Option (Bytes × Bytes) := do
  let name := text.takeWhile (· != 0x3D)
  if text.contains 0x3B then none
  else some (← unescape? name, ← unescape? (text.drop (name.length + 1)))

/-- The options in a text, or nothing if one of them is malformed. -/
def options? (text : Bytes) : Option (List (Bytes × Bytes)) :=
  ((pieces 0x26 text).filter (!·.isEmpty)).mapM option?

/-- The file layers that can be selected. -/
def layers : List String := ["unix", "unix-none", "unix-dotfile", "unix-excl"]

/-- The file layer selected after `chosen`; two selections have to agree. -/
def selectLayer? (chosen : Bytes) : List Bytes → Option Bytes
  | [] => some chosen
  | next :: rest => if chosen ≠ [] ∧ chosen ≠ next then none else selectLayer? next rest

/-- The options are well-formed and select no file layer, or one that exists. -/
def areUsable (text : Bytes) : Bool :=
  match options? text with
  | none => false
  | some options =>
    let selected := options.filterMap fun (name, value) =>
      if name = utf8 "vfs" then some value else none
    match selectLayer? [] selected with
    | none => false
    | some layer => layer.isEmpty || layers.any fun known => utf8 known == layer.takeWhile (· != 0)

/-- The number of bytes that the name of a file may have. -/
def maxName : Nat := 504

/-- The file that a path names: all before the options, up to a zero byte. -/
def file (path : Bytes) : Bytes := (path.takeWhile (· != 0x3F)).takeWhile (· != 0)

/-- The file of the store at a path, unless it cannot be opened for its name or for
the options. -/
def file? (path : Bytes) : Option Bytes :=
  let options := (path.dropWhile (· != 0x3F)).drop 1
  if areUsable options ∧ (file path).length ≤ maxName then some (file path) else none

end BitLang.StoreLocation
