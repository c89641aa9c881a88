/-
# CBOR data items

The concise binary object representation: integers, byte and text strings,
arrays, maps, tags and simple values, each behind a head that holds a major type
and an argument.  Writing is canonical: heads are as short as they can be and
lengths are stated.  Reading accepts every well-formed item within fixed limits on
nesting and on the number of elements.
-/

import BitLang.Text.Bytes

namespace BitLang.Cbor

/-- A data item.  Strings sent in chunks keep the chunks of a text, because each
must be valid on its own. -/
inductive Item where
  | unsigned (n : Nat)
  | negative (n : Nat)
  | bytes (content : Bytes)
  | text (chunks : List Bytes)
  | array (items : List Item)
  | map (pairs : List (Item × Item))
  | tag (number : Nat) (content : Item)
  | simple (value : Nat)
  | float (width bits : Nat)
deriving Repr, Inhabited

/-- The shortest head with the given major type and argument.  An argument that takes
more than eight bytes has no head; one that no reader accepts stands in its place. -/
def writeHead (major argument : Nat) : Bytes :=
  let head (info : Nat) : UInt8 := UInt8.ofNat (32 * major + info)
  if argument < 24 then [head argument]
  else if argument < 0x100 then head 24 :: bigEndian 1 argument
  else if argument < 0x10000 then head 25 :: bigEndian 2 argument
  else if argument < 0x100000000 then head 26 :: bigEndian 4 argument
  else if argument < 0x10000000000000000 then head 27 :: bigEndian 8 argument
  else [head 28]

/-- A floating-point number as it stands, `width` being 2, 4 or 8 bytes. -/
def writeFloat (width bits : Nat) : Bytes :=
  UInt8.ofNat (0xE0 + (if width = 2 then 25 else if width = 4 then 26 else 27))
    :: bigEndian width bits

namespace Item

mutual

/-- Puts the encoding of an item before the given bytes. -/
def writeOnto : Item → Bytes → Bytes
  | unsigned n, rest => writeHead 0 n ++ rest
  | negative n, rest => writeHead 1 n ++ rest
  | bytes content, rest => writeHead 2 content.length ++ (content ++ rest)
  | text chunks, rest => writeHead 3 chunks.flatten.length ++ (chunks.flatten ++ rest)
  | array items, rest => writeHead 4 items.length ++ writeItems items rest
  | map pairs, rest => writeHead 5 pairs.length ++ writePairs pairs rest
  | tag number content, rest => writeHead 6 number ++ content.writeOnto rest
  | simple value, rest => writeHead 7 value ++ rest
  | float width bits, rest => writeFloat width bits ++ rest

/-- Puts the encodings of items before the given bytes. -/
def writeItems : List Item → Bytes → Bytes
  | [], rest => rest
  | item :: items, rest => item.writeOnto (writeItems items rest)

/-- Puts the encodings of keys and values before the given bytes. -/
def writePairs : List (Item × Item) → Bytes → Bytes
  | [], rest => rest
  | (key, value) :: pairs, rest => key.writeOnto (value.writeOnto (writePairs pairs rest))

end

/-- The encoding of an item. -/
def write (item : Item) : Bytes := item.writeOnto []

end Item

/-- The byte that ends an item of unstated length. -/
def breakByte : UInt8 := 0xFF

/-- How deeply arrays and maps may nest. -/
def maxNesting : Nat := 4096

/-- How many elements an array, or pairs a map, may have. -/
def maxElements : Nat := 131072

/-- The head of an item: major type, additional information and argument. -/
structure Head where
  major : Nat
  info : Nat
  argument : Nat

/-- The additional information of an item of unstated length. -/
def Head.unstated : Nat := 31

/-- How many bytes of argument follow the first byte of a head. -/
def argumentWidth? (info : Nat) : Option Nat :=
  match info with
  | 24 => some 1
  | 25 => some 2
  | 26 => some 4
  | 27 => some 8
  | _ => none

/-- Reads a head.  Only strings, arrays and maps may leave their length unstated,
and a simple value that fits the first byte must stand there. -/
def readHead? : Bytes → Option (Head × Bytes)
  | [] => none
  | byte :: rest =>
    let major := byte.toNat / 32
    let info := byte.toNat % 32
    if info < 24 then some (⟨major, info, info⟩, rest)
    else match argumentWidth? info with
      | some width => do
        let (argument, rest) ← takeExactly? width rest
        let head : Head := ⟨major, info, ofBigEndian argument⟩
        if major = 7 ∧ info = 24 ∧ head.argument < 32 then none else some (head, rest)
      | none =>
        if info = Head.unstated ∧ 2 ≤ major ∧ major ≤ 5 then some (⟨major, info, info⟩, rest)
        else none

/-- Reads the chunks of a string of unstated length: strings of the same major
type with stated lengths, up to a break. -/
def readChunks? : (fuel major : Nat) → (done : Array Bytes) → Bytes → Option (List Bytes × Bytes)
  | 0, _, _, _ => none
  | fuel + 1, major, done, bytes =>
    match bytes with
    | [] => none
    | byte :: rest =>
      if byte = breakByte then some (done.toList, rest)
      else do
        let (head, rest) ← readHead? bytes
        if head.major = major ∧ head.info ≠ Head.unstated then
          let (chunk, rest) ← takeExactly? head.argument rest
          readChunks? fuel major (done.push chunk) rest
        else none

/-- The elements of a map, two by two. -/
def pairUp : List Item → Option (List (Item × Item))
  | [] => some []
  | [_] => none
  | key :: value :: rest => (pairUp rest).map ((key, value) :: ·)

/-- The first of the bytes opens a tag. -/
def opensTag : Bytes → Bool
  | byte :: _ => byte.toNat / 32 == 6
  | [] => false

mutual

/-- Reads one item that stands inside `depth` arrays, maps and tags.  The outermost
of a run of tags does not count. -/
def readItem? : (fuel depth : Nat) → Bytes → Option (Item × Bytes)
  | 0, _, _ => none
  | fuel + 1, depth, bytes => do
    let (head, rest) ← readHead? bytes
    match head.major with
    | 0 => some (.unsigned head.argument, rest)
    | 1 => some (.negative head.argument, rest)
    | 2 =>
      if head.info = Head.unstated then
        let (chunks, rest) ← readChunks? fuel 2 #[] rest
        some (.bytes chunks.flatten, rest)
      else
        let (content, rest) ← takeExactly? head.argument rest
        some (.bytes content, rest)
    | 3 =>
      if head.info = Head.unstated then
        let (chunks, rest) ← readChunks? fuel 3 #[] rest
        some (.text chunks, rest)
      else
        let (content, rest) ← takeExactly? head.argument rest
        some (.text [content], rest)
    | 4 =>
      let (items, rest) ← readElements? fuel (depth + 1) head 1 #[] rest
      some (.array items, rest)
    | 5 =>
      let (items, rest) ← readElements? fuel (depth + 1) head 2 #[] rest
      let pairs ← pairUp items
      some (.map pairs, rest)
    | 6 =>
      let inner := if opensTag rest then depth + 1 else depth
      if maxNesting < inner then none
      else
        let (content, rest) ← readItem? fuel inner rest
        some (.tag head.argument content, rest)
    | _ =>
      match argumentWidth? head.info with
      | some 1 | none => some (.simple head.argument, rest)
      | some width => some (.float width head.argument, rest)

/-- Reads the elements behind the head of an array or map, whose declared length
counts groups of `group` items, after the elements in `done`. -/
def readElements? : (fuel depth : Nat) → (head : Head) → (group : Nat) → (done : Array Item) →
    Bytes → Option (List Item × Bytes)
  | 0, _, _, _, _, _ => none
  | fuel + 1, depth, head, group, done, bytes =>
    if maxNesting < depth then none
    else if head.info = Head.unstated then
      match bytes with
      | [] => none
      | byte :: rest =>
        if byte = breakByte then some (done.toList, rest)
        else if group * maxElements ≤ done.size then none
        else do
          let (item, rest) ← readItem? fuel depth bytes
          readElements? fuel depth head group (done.push item) rest
    else if maxElements < head.argument then none
    else if group * head.argument ≤ done.size then some (done.toList, bytes)
    else do
      let (item, rest) ← readItem? fuel depth bytes
      readElements? fuel depth head group (done.push item) rest

end

/-- Reads bytes that hold exactly one well-formed item. -/
def Item.read? (bytes : Bytes) : Option Item :=
  match readItem? (2 * bytes.length + 2) 0 bytes with
  | some (item, []) => some item
  | _ => none

end BitLang.Cbor
