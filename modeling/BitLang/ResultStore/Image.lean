/-
# Stores in files

A store is kept in a file as a signature followed by its rows.  A key and its
bytes are each preceded by their length in eight bytes.  A file that is empty holds
a store without results; one that starts in any other way is no store.
-/

import BitLang.ResultStore

namespace BitLang.ResultStore

/-- What the file of a store starts with. -/
def signature : Bytes := utf8 "nick results 1\n"

/-- Bytes preceded by their length. -/
def writeField (bytes : Bytes) : Bytes := bigEndian 8 bytes.length ++ bytes

/-- Takes bytes that are preceded by their length. -/
def readField? (bytes : Bytes) : Option (Bytes × Bytes) := do
  let (length, rest) ← takeExactly? 8 bytes
  takeExactly? (ofBigEndian length) rest

/-- The content of the file of a store. -/
def image (s : ResultStore) : Bytes :=
  signature ++ s.rows.flatMap fun (key, bytes) => writeField key ++ writeField bytes

/-- Reads rows up to the end of a file. -/
def readRows? : (fuel : Nat) → Bytes → Option (List (Bytes × Bytes))
  | _, [] => some []
  | 0, _ => none
  | fuel + 1, bytes => do
    let (key, rest) ← readField? bytes
    let (bytes, rest) ← readField? rest
    let rows ← readRows? fuel rest
    some ((key, bytes) :: rows)

/-- The store that a file holds. -/
def ofImage? (bytes : Bytes) : Option ResultStore :=
  if bytes.isEmpty then some fresh
  else if signature.isPrefixOf bytes then do
    let rows ← readRows? bytes.length (bytes.drop signature.length)
    some ⟨rows, true⟩
  else none

end BitLang.ResultStore
