/-
# The result store

Results are stored as bytes under keys, which are bytes too, in a database that may be closed
and opened again.  Storing under a key replaces what was there.  A closed database
refuses every statement and keeps its rows.
-/

import BitLang.Value.Wire

namespace BitLang

/-- What the store was doing when its database refused. -/
inductive StoreTask where
  | querying
  | saving
  | counting
  | clearing
deriving DecidableEq, Repr

/-- The task in words. -/
def StoreTask.describe : StoreTask → String
  | querying => "querying result"
  | saving => "saving result"
  | counting => "counting results"
  | clearing => "clearing results"

/-- Why the store has no answer. -/
inductive StoreError where
  | notFound
  | notSerializable
  | undecodable (key : Bytes) (error : WireError)
  | refused (task : StoreTask)
deriving DecidableEq, Repr

/-- The error in words. -/
def StoreError.message : StoreError → Bytes
  | notFound => utf8 "result not found"
  | notSerializable => utf8 Wire.notSerializable
  | undecodable key error => utf8 "decoding result " ++ key ++ utf8 (": " ++ error.message)
  | refused task => utf8 task.describe

/-- The rows of a database of results, and whether it is open. -/
structure ResultStore where
  rows : List (Bytes × Bytes)
  isOpen : Bool
deriving Repr

namespace ResultStore

/-- A store without results. -/
def fresh : ResultStore := ⟨[], true⟩

/-- Writes a row into the database itself, in the place of one with the same key.
This works whether or not the store has it open. -/
def setRow (s : ResultStore) (key bytes : Bytes) : ResultStore :=
  { s with rows := (key, bytes) :: s.rows.filter fun (other, _) => other != key }

/-- Stores bytes under a key. -/
def putBytes (s : ResultStore) (key bytes : Bytes) : Except StoreError ResultStore :=
  if s.isOpen then .ok (s.setRow key bytes) else .error (.refused .saving)

/-- Stores a value under a key, unless it holds a function. -/
def put (s : ResultStore) (key : Bytes) (v : Value) : Except StoreError ResultStore :=
  match v.marshal? with
  | none => .error .notSerializable
  | some bytes => s.putBytes key bytes

/-- The value stored under a key. -/
def get (s : ResultStore) (key : Bytes) : Except StoreError Value :=
  if s.isOpen then
    match s.rows.lookup key with
    | none => .error .notFound
    | some bytes => (Value.unmarshal bytes).mapError (.undecodable key)
  else .error (.refused .querying)

/-- The number of results. -/
def count (s : ResultStore) : Except StoreError Nat :=
  if s.isOpen then .ok s.rows.length else .error (.refused .counting)

/-- Removes every result. -/
def clear (s : ResultStore) : Except StoreError ResultStore :=
  if s.isOpen then .ok { s with rows := [] } else .error (.refused .clearing)

/-- Closes the database. -/
def close (s : ResultStore) : ResultStore := { s with isOpen := false }

/-- Opens the database again. -/
def reopen (s : ResultStore) : ResultStore := { s with isOpen := true }

end ResultStore

end BitLang
