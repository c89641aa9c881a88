/-
# Files

Programs and settings are read from files, and some results are written to them.
What does so is given the means as a record of operations in a monad, so the same
code runs on a file system and on a tree of files held as a value.  This module
fixes those records and the tree.
-/

import BitLang.Path
import BitLang.Text.Bytes

namespace BitLang

/-- What stands in the way of using a file. -/
inductive FileFault where
  | notFound
  | notDirectory
  | isDirectory
  | invalid
  | tooLong
  | refused (reason : String)
deriving DecidableEq, Repr

/-- The fault in words. -/
def FileFault.describe : FileFault → String
  | notFound => "no such file or directory"
  | notDirectory => "not a directory"
  | isDirectory => "is a directory"
  | invalid => "invalid argument"
  | tooLong => "file name too long"
  | refused reason => reason

/-- A failed attempt to use a file: what was tried, on which path, and what stood
in the way. -/
structure FileError where
  attempt : String
  path : Bytes
  fault : FileFault
deriving DecidableEq, Repr

/-- The error in words. -/
def FileError.message (e : FileError) : Bytes :=
  utf8 (e.attempt ++ " ") ++ e.path ++ utf8 (": " ++ e.fault.describe)

/-- A failure to open a file. -/
def FileError.opening (path : Bytes) (fault : FileFault) : FileError := ⟨"open", path, fault⟩

/-- A failure to read what is open. -/
def FileError.reading (path : Bytes) (fault : FileFault) : FileError := ⟨"read", path, fault⟩

/-- The means to read files: the content of one, and whether something stands at a
path. -/
structure FileReader (m : Type → Type) where
  read : Bytes → m (Except FileError Bytes)
  isPresent : Bytes → m Bool

/-- The means to read and write files.  Writing replaces the content; appending
keeps it and adds to it. -/
structure FileAccess (m : Type → Type) extends FileReader m where
  write : Bytes → Bytes → m (Except FileError Unit)
  append : Bytes → Bytes → m (Except FileError Unit)
  makeDirectories : Bytes → m (Except FileError Unit)

/-- What stands at a place of a tree. -/
inductive FileNode where
  | file (content : Bytes)
  | directory
deriving DecidableEq, Repr

/-- A tree of files.  A place is the list of names that lead to it from the root,
innermost first; the root itself is always a directory. -/
structure FileTree where
  nodes : List (List Bytes × FileNode)
deriving Repr

namespace FileTree

/-- The tree that has only a root. -/
def empty : FileTree := ⟨[]⟩

/-- What stands at a place. -/
def node? (tree : FileTree) (place : List Bytes) : Option FileNode :=
  if place.isEmpty then some .directory else tree.nodes.lookup place

/-- Puts something at a place. -/
def put (tree : FileTree) (place : List Bytes) (node : FileNode) : FileTree :=
  ⟨(place, node) :: tree.nodes.filter fun (other, _) => other != place⟩

/-- Makes a directory at a place, and those around it.  A file in the way stops it. -/
def makeDirectory (tree : FileTree) : List Bytes → Option FileTree
  | [] => some tree
  | name :: outer => do
    let tree ← makeDirectory tree outer
    match tree.node? (name :: outer) with
    | none => some (tree.put (name :: outer) .directory)
    | some .directory => some tree
    | some (.file _) => none

/-- The number of bytes that a name may have. -/
def maxName : Nat := 255

/-- The number of bytes that a path may have. -/
def maxPath : Nat := 4095

/-- Follows segments from a place.  Everything passed on the way has to be a
directory, in which no name is too long; the end need not exist. -/
def follow (tree : FileTree) : (place : List Bytes) → (segments : List Bytes) →
    Except FileFault (List Bytes)
  | place, [] => .ok place
  | place, segment :: rest =>
    match tree.node? place with
    | none => .error .notFound
    | some (.file _) => .error .notDirectory
    | some .directory =>
      if maxName < segment.length then .error .tooLong
      else follow tree (Path.enter true place segment) rest

/-- What is wrong with a path, whatever the tree: a zero byte cannot stand in one,
the empty path leads nowhere, and a path may be too long. -/
def pathFault? (path : Bytes) : Option FileFault :=
  if path.contains 0 then some .invalid
  else if path.isEmpty then some .notFound
  else if maxPath < path.length then some .tooLong
  else none

/-- The place that a path leads to from the directory at `here`. -/
def locate (tree : FileTree) (here : List Bytes) (path : Bytes) :
    Except FileFault (List Bytes) :=
  match pathFault? path with
  | some fault => .error fault
  | none => tree.follow (if Path.isAbsolute path then [] else here) (Path.segments path)

/-- What a path leads to. -/
def look (tree : FileTree) (here : List Bytes) (path : Bytes) : Except FileFault FileNode := do
  match tree.node? (← tree.locate here path) with
  | none => .error .notFound
  | some node => .ok node

/-- The content of a file. -/
def read (tree : FileTree) (here : List Bytes) (path : Bytes) : Except FileError Bytes :=
  match tree.look here path with
  | .error fault => .error (.opening path fault)
  | .ok .directory => .error (.reading path .isDirectory)
  | .ok (.file content) => .ok content

/-- Changes the content of a file, which is made if its directory exists. -/
def modify (tree : FileTree) (here : List Bytes) (path : Bytes) (change : Bytes → Bytes) :
    Except FileError FileTree := do
  let place ← (tree.locate here path).mapError (.opening path)
  match tree.node? place with
  | some .directory => .error (.opening path .isDirectory)
  | some (.file content) => .ok (tree.put place (.file (change content)))
  | none =>
    match tree.node? place.tail with
    | some .directory => .ok (tree.put place (.file (change [])))
    | some (.file _) => .error (.opening path .notDirectory)
    | none => .error (.opening path .notFound)

/-- Reading from a tree, seen from the directory at `here`. -/
def reader (tree : FileTree) (here : List Bytes) : FileReader Id where
  read path := tree.read here path
  isPresent path := (tree.look here path).isOk

/-- Makes a change to the tree that is the state, unless it fails. -/
def attempt (change : FileTree → Except FileError FileTree) :
    StateM FileTree (Except FileError Unit) := fun tree =>
  match change tree with
  | .ok tree => (.ok (), tree)
  | .error error => (.error error, tree)

/-- Reading and writing the tree that is the state, seen from the directory at
`here`. -/
def access (here : List Bytes) : FileAccess (StateM FileTree) where
  read path := return (← get).read here path
  isPresent path := return ((← get).look here path).isOk
  write path content := attempt fun tree => tree.modify here path fun _ => content
  append path content := attempt fun tree => tree.modify here path fun old => old ++ content
  makeDirectories path := attempt fun tree =>
    let names := Path.names (Path.absolute (Path.render true here) path)
    match pathFault? path with
    | some fault => .error ⟨"mkdir", path, fault⟩
    | none =>
      if names.any fun name => maxName < name.length then .error ⟨"mkdir", path, .tooLong⟩
      else match tree.makeDirectory names with
        | some tree => .ok tree
        | none => .error ⟨"mkdir", path, .notDirectory⟩

end FileTree

end BitLang
