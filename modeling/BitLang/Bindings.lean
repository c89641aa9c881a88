/-
# Bindings

Bindings map bit sequences to values and remember the order in which their keys
were first bound.  Binding a key again replaces its value and leaves its place
alone.  The entries are kept in order beside an index from keys to places.
-/

import BitLang.BitSeq.Basic
import Std.Data.TreeMap

namespace BitLang

/-- A map from bit sequences to values, in order of first insertion. -/
structure Bindings (α : Type) where
  entries : Array (BitSeq × α)
  index : Std.TreeMap BitSeq Nat BitSeq.cmp

namespace Bindings

variable {α : Type}

/-- The map without entries. -/
def empty : Bindings α := ⟨#[], ∅⟩

instance : Inhabited (Bindings α) := ⟨empty⟩

/-- The number of entries. -/
def size (s : Bindings α) : Nat := s.entries.size

/-- The entries in order. -/
def toList (s : Bindings α) : List (BitSeq × α) := s.entries.toList

/-- The keys in order. -/
def keys (s : Bindings α) : List BitSeq := s.toList.map Prod.fst

/-- The values in order of their keys. -/
def values (s : Bindings α) : List α := s.toList.map Prod.snd

/-- The value bound to a key. -/
def get? (s : Bindings α) (key : BitSeq) : Option α :=
  match s.index[key]? with
  | some i => s.entries[i]?.map Prod.snd
  | none => none

/-- Binds a key: in the key's own place if it has one, else behind all others. -/
def insert (s : Bindings α) (key : BitSeq) (value : α) : Bindings α :=
  match s.index[key]? with
  | some i => ⟨s.entries.setIfInBounds i (key, value), s.index⟩
  | none =>
    let index := s.index.insert key s.entries.size
    ⟨s.entries.push (key, value), index⟩

/-- Binds the given entries one after another. -/
def insertAll (s : Bindings α) (entries : List (BitSeq × α)) : Bindings α :=
  entries.foldl (fun s (key, value) => s.insert key value) s

/-- The map made by binding the given entries in order. -/
def ofList (entries : List (BitSeq × α)) : Bindings α := empty.insertAll entries

/-- Both maps together.  Where both bind a key, the value is that of `other` and
the place that of `s`; keys of `other` alone follow in their own order. -/
def merge (s other : Bindings α) : Bindings α :=
  if other.size = 0 then s
  else if s.size = 0 then other
  else s.insertAll other.toList

end Bindings

end BitLang
