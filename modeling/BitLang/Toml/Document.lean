/-
# What a TOML document defines

The statements of a document are carried out one by one on a tree of named nodes.
A table that only appears on the way to another key is implied, and may be defined
once afterwards; everything else is defined once.  The fields of an inline table
also have to agree among themselves, whatever the tree says.  Beside the tree, the
document lists the keys that its statements name, in the order of the text.
-/

import BitLang.Toml.Parser

namespace BitLang.Toml

/-- What a name stands for: a value, a table, or an array of tables with its latest
element first. -/
inductive Node where
  | value (value : Value)
  | table (entries : List (String × Node))
  | tables (elements : List (List (String × Node)))
deriving Repr, Inhabited

/-- The nodes of a table, in the order in which they appeared. -/
abbrev Entries := List (String × Node)

namespace Entries

/-- Puts a node in the place of the one with its name, or behind all others. -/
def put (name : String) (node : Node) : Entries → Entries
  | [] => [(name, node)]
  | (other, old) :: rest =>
    if other = name then (name, node) :: rest else (other, old) :: put name node rest

/-- The table that a name stands for; for an array of tables, its latest element. -/
def table? (entries : Entries) (name : String) : Option Entries :=
  match entries.lookup name with
  | some (.table entries) => some entries
  | some (.tables (latest :: _)) => some latest
  | _ => none

/-- Puts a table where `table?` finds it. -/
def putTable (entries : Entries) (name : String) (table : Entries) : Entries :=
  match entries.lookup name with
  | some (.tables (_ :: earlier)) => entries.put name (.tables (table :: earlier))
  | _ => entries.put name (.table table)

/-- The table at a key. -/
def at? (entries : Entries) : Key → Option Entries
  | [] => some entries
  | name :: rest => do (← entries.table? name).at? rest

/-- Changes the table at a key. -/
def modify (entries : Entries) : Key → (Entries → Option Entries) → Option Entries
  | [], change => change entries
  | name :: rest, change => do
    let table ← (← entries.table? name).modify rest change
    some (entries.putTable name table)

/-- Puts a node at a key, through tables that are made where they are missing.
Nothing but a table can be passed through; at the end, anything gives way. -/
def graft (entries : Entries) (name : String) (node : Node) : (parents : Key) → Option Entries
  | [] => some (entries.put name node)
  | parent :: rest =>
    match entries.lookup parent with
    | none => do some (entries.put parent (.table (← graft [] name node rest)))
    | some (.table inner) => do some (entries.put parent (.table (← graft inner name node rest)))
    | some _ => none

end Entries

/-- The state of carrying out statements: the tree, the keys of tables that are
only implied, the keys that are marked as arrays, and the keys named so far. -/
structure Document where
  root : Entries
  implied : List Key
  arrays : List Key
  keys : List Key
deriving Repr

namespace Document

/-- The document without statements. -/
def empty : Document := ⟨[], [], [], []⟩

/-- Marks a key as implied. -/
def imply (d : Document) (key : Key) : Document := { d with implied := key :: d.implied }

/-- The key that carries the mark of a value.  An empty name is left out of it, so
the mark goes to the table around, except where there is none. -/
def markKey (context : Key) (name : String) : Key :=
  match context ++ (if name = "" then [] else [name]) with
  | [] => [""]
  | key => key

/-- Marks a value as an array, or takes the mark away. -/
def mark (d : Document) (context : Key) (name : String) (isArray : Bool) : Document :=
  let key := markKey context name
  let others := d.arrays.filter (· != key)
  { d with arrays := if isArray then key :: others else others }

/-- Names a key. -/
def mention (d : Document) (key : Key) : Document := { d with keys := d.keys ++ [key] }

/-- Defines a name in the table at `context`.  Something that is there already has
to be implied; it then counts as defined and stays as it is, unless its key is
marked as an array: then it gives way. -/
def define (d : Document) (context : Key) (name : String) (node : Node) : Option Document := do
  let key := context ++ [name]
  let table ← d.root.at? context
  let placed := d.root.modify context fun entries => some (entries.put name node)
  if (table.lookup name).isNone then
    some { d with root := ← placed }
  else if d.implied.contains key then
    let d := { d with implied := d.implied.filter (· != key) }
    if d.arrays.contains key then some { d with root := ← placed } else some d
  else none

/-- Makes sure that every name of a path leads to a table, from the table at
`context` on.  Tables that were missing are implied. -/
def openPath (d : Document) (context : Key) : Key → Option Document
  | [] => some d
  | name :: rest => do
    let table ← d.root.at? context
    let context' := context ++ [name]
    if (table.lookup name).isNone then
      let root ← d.root.modify context fun entries => some (entries.put name (.table []))
      openPath { d with root, implied := context' :: d.implied } context' rest
    else if (table.table? name).isNone then none
    else openPath d context' rest

/-- Defines the table at a key. -/
def openTable (d : Document) (key : Key) : Option Document := do
  let name ← key.getLast?
  let d ← d.openPath [] key.dropLast
  d.define key.dropLast name (.table [])

/-- Adds an element to the array of tables at a key. -/
def openElement (d : Document) (key : Key) : Option Document := do
  let name ← key.getLast?
  let d ← d.openPath [] key.dropLast
  let root ← d.root.modify key.dropLast fun entries =>
    match entries.lookup name with
    | none => some (entries.put name (.tables [[]]))
    | some (.tables elements) => some (entries.put name (.tables ([] :: elements)))
    | some _ => none
  some { d with root }

/-- Opens the tables that a key of several names passes through, each implied
before it is defined. -/
def openDotted (d : Document) (context : Key) : Key → Option Document
  | [] => some d
  | name :: rest => do
    let context := context ++ [name]
    let d ← (d.imply context).openTable context
    d.openDotted context rest

/-- The value is an array. -/
def isArray : Value → Bool
  | .array _ => true
  | _ => false

mutual

/-- Carries out what is inside a value that is about to be defined under a name in
the table at `context`, and gives its node. -/
def absorb (inArray : Bool) (d : Document) (context : Key) (name : String) :
    Value → Option (Document × Node)
  | .array items => do
    let d ← absorbItems (d.mark context name true) context name items
    some (d, .value (.array items))
  | .table fields => do
    let key := context ++ [name]
    let d := d.imply key
    let d ← if inArray then d.openElement key else d.openTable key
    let (d, own) ← absorbFields d key [] fields
    some (d, .table own)
  | value => some (d, .value value)

/-- Carries out what is inside the items of an array. -/
def absorbItems (d : Document) (context : Key) (name : String) : List Value → Option Document
  | [] => some d
  | item :: items => do
    let (d, _) ← absorb true d context name item
    absorbItems d context name items

/-- Carries out the fields of the inline table at `context`, whose fields before
them are `own`, and gives all its fields. -/
def absorbFields (d : Document) (context : Key) (own : Entries) :
    List (Key × Value) → Option (Document × Entries)
  | [] => some (d, own)
  | (key, value) :: fields => do
    let name ← key.getLast?
    let inner := context ++ key.dropLast
    let d ← d.openDotted context key.dropLast
    let (d, node) ← absorb false (d.mention (inner ++ [name])) inner name value
    let d := (← d.define inner name node).mark inner name (isArray value)
    absorbFields d context (← own.graft name node key.dropLast) fields

end

/-- Carries out statements under the header `context`. -/
def run (d : Document) (context : Key) : List Statement → Option Document
  | [] => some d
  | .table key :: rest => do
    (((← d.openTable key).mark key "" false).mention key).run key rest
  | .element key :: rest => do
    (((← d.openElement key).mark key "" false).mention key).run key rest
  | .assign key value :: rest => do
    (← d.absorbFields context [] [(key, value)]).1.run context rest

/-- The document that a text defines, unless it is malformed or contradicts
itself. -/
def read? (text : Bytes) : Option Document := do empty.run [] (← statements? text)

end Document

end BitLang.Toml
