/-
# Lines of input

Input is read line by line through a buffer.  A line ends with a line feed, before
which a carriage return is dropped.  A line that fills the buffer is handed out in
parts, and a carriage return at the end of a part waits for what follows it.
-/

import BitLang.Text.Bytes

namespace BitLang

/-- A line without its end; a part of a longer line if the buffer was full. -/
structure Line where
  text : Bytes
  isPart : Bool
deriving DecidableEq, Repr

/-- The bytes of a line so far, last first, and their number. -/
structure LineBuffer where
  held : Bytes
  count : Nat
deriving Repr

namespace LineBuffer

/-- The number of bytes that a buffer holds. -/
def capacity : Nat := 4096

/-- A buffer that holds nothing. -/
def empty : LineBuffer := ⟨[], 0⟩

/-- Takes in a byte: what is held afterwards, and the line that it completes. -/
def feed (buffer : LineBuffer) (byte : UInt8) : LineBuffer × Option Line :=
  if byte = 0x0A then
    let held := if buffer.held.head? = some 0x0D then buffer.held.tail else buffer.held
    (empty, some ⟨held.reverse, false⟩)
  else
    let held := byte :: buffer.held
    if buffer.count + 1 < capacity then (⟨held, buffer.count + 1⟩, none)
    else if byte = 0x0D then (⟨[byte], 1⟩, some ⟨buffer.held.reverse, true⟩)
    else (empty, some ⟨held.reverse, true⟩)

/-- The line that is left at the end of the input. -/
def finish (buffer : LineBuffer) : Option Line :=
  if buffer.held.isEmpty then none else some ⟨buffer.held.reverse, false⟩

/-- The lines of some input. -/
def lines (buffer : LineBuffer) : Bytes → List Line
  | [] => buffer.finish.toList
  | byte :: rest =>
    match buffer.feed byte with
    | (buffer, none) => buffer.lines rest
    | (buffer, some line) => line :: buffer.lines rest

end LineBuffer

/-- The lines of a text. -/
def Line.list (text : Bytes) : List Line := LineBuffer.empty.lines text

end BitLang
