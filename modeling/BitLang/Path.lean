/-
# Paths

A path is a byte string of names separated by slashes.  It is brought into normal
form without looking at any file: empty and single-dot segments vanish, and a double
dot takes the name before it away.  The names of a normal form are kept innermost
first, so that leaving a directory takes the head off a list.
-/

import BitLang.Text.Bytes

namespace BitLang.Path

/-- The byte that separates names. -/
def slash : UInt8 := 0x2F

/-- The segment that stays where it is. -/
def dot : Bytes := [0x2E]

/-- The segment that leaves a directory. -/
def dotDot : Bytes := [0x2E, 0x2E]

/-- The path starts at the root. -/
def isAbsolute (path : Bytes) : Bool := path.head? == some slash

/-- The stretches between the slashes, empty ones included. -/
def segments (path : Bytes) : List Bytes := pieces slash path

/-- Takes in one segment.  Above the root there is only the root, and above the
start of a relative path there are only double dots. -/
def enter (absolute : Bool) (names : List Bytes) (segment : Bytes) : List Bytes :=
  if segment = [] ∨ segment = dot then names
  else if segment = dotDot then
    match names with
    | [] => if absolute then [] else [dotDot]
    | name :: outer => if name = dotDot then dotDot :: name :: outer else outer
  else segment :: names

/-- The names of segments in normal form, innermost first. -/
def normalNames (absolute : Bool) (segments : List Bytes) : List Bytes :=
  segments.foldl (enter absolute) []

/-- The path with the given names, innermost first.  No names are the root or, in
a relative path, a single dot. -/
def render (absolute : Bool) (names : List Bytes) : Bytes :=
  let joined := [slash].intercalate names.reverse
  if absolute then slash :: joined
  else if names.isEmpty then dot else joined

/-- The names of a path in normal form, innermost first. -/
def names (path : Bytes) : List Bytes := normalNames (isAbsolute path) (segments path)

/-- The normal form of a path. -/
def clean (path : Bytes) : Bytes := render (isAbsolute path) (names path)

/-- The normal form of a path seen from a directory.  An empty part is left out. -/
def join (directory path : Bytes) : Bytes :=
  if directory = [] then if path = [] then [] else clean path
  else if path = [] then clean directory
  else clean (directory ++ slash :: path)

/-- The directory that a path lies in: all but the last segment. -/
def parent (path : Bytes) : Bytes :=
  render (isAbsolute path) (normalNames (isAbsolute path) (segments path).dropLast)

/-- The normal form of a path as an absolute one, seen from a directory. -/
def absolute (directory path : Bytes) : Bytes :=
  if isAbsolute path then clean path else join directory path

/-- The directory with the given names and all directories around it, up to the
root. -/
def enclosing : (names : List Bytes) → List Bytes
  | [] => [render true []]
  | name :: outer => render true (name :: outer) :: enclosing outer

/-- The directory at an absolute path and all directories around it, innermost
first. -/
def ancestors (path : Bytes) : List Bytes := enclosing (names path)

end BitLang.Path
