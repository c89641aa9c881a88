/-
# The channel to an editor

Messages travel behind a header of lines that end with a carriage return and a line
feed.  One of the lines states the length of the message, and an empty line ends
the header.  A message is read in portions that grow, and as soon as the portions
hold a value the message ends, whatever length was stated.
-/

import BitLang.Editor.Json
import BitLang.Text.Numeral
import BitLang.Text.Trim

namespace BitLang.Editor

/-- Where the reading of a channel stands: in the header, with the bytes of its
current line, last first, and the length that an earlier line stated; in a message,
with the numbers of bytes that are missing from it and from the current portion,
the size of all portions up to that one, and the bytes so far, last first; or after a
header that states no length that could be used. -/
inductive Channel where
  | header (line : Bytes) (length : Nat)
  | body (missing portion size : Nat) (received : Bytes)
  | broken
deriving DecidableEq, Repr

namespace Channel

/-- A channel before its first message. -/
def start : Channel := .header [] 0

/-- What precedes the length in its line. -/
def lengthMark : Bytes := utf8 "Content-Length: "

/-- The number that decimal digits spell, if it fits into 32 bits. -/
def length? (digits : Bytes) : Option Nat :=
  let characters := digits.map fun byte => Char.ofNat byte.toNat
  let value := Numeral.ofDigits 10 characters
  if !digits.isEmpty ∧ characters.all Char.isDigit ∧ value < 0x100000000 then some value else none

/-- The size of the first portion of a message.  With each further one, the size of
all of them is twice the one before and this much more. -/
def firstPortion : Nat := 512

/-- Takes in a complete line of the header. -/
def takeLine (line : Bytes) (length : Nat) : Channel :=
  if line.isEmpty then if length = 0 then .broken else .body length firstPortion firstPortion []
  else if lengthMark.isPrefixOf line then
    match length? (trim (line.drop lengthMark.length)) with
    | some length => .header [] length
    | none => .broken
  else .header [] length

/-- Takes in a byte: where the channel stands then, and the message that the byte
completes. -/
def feed (channel : Channel) (byte : UInt8) : Channel × Option Bytes :=
  match channel with
  | .header (0x0D :: line) length =>
    (if byte = 0x0A then takeLine line.reverse length else .broken, none)
  | .header line length => (.header (byte :: line) length, none)
  | .body missing portion size received =>
    let received := byte :: received
    if missing ≤ 1 then (start, some received.reverse)
    else if 1 < portion then (.body (missing - 1) (portion - 1) size received, none)
    else if (Json.read? received.reverse).isSome then (start, some received.reverse)
    else (.body (missing - 1) (size + firstPortion) (2 * size + firstPortion) received, none)
  | .broken => (.broken, none)

/-- What has been received of a message when the input ends. -/
def finish : Channel → Option Bytes
  | .body _ _ _ received => some received.reverse
  | _ => none

/-- The messages of some input. -/
def messages (channel : Channel) : Bytes → List Bytes
  | [] => channel.finish.toList
  | byte :: rest =>
    match channel.feed byte with
    | (channel, none) => channel.messages rest
    | (channel, some message) => message :: channel.messages rest

/-- A message with its header. -/
def frame (message : String) : Bytes :=
  utf8 ("Content-Length: " ++ toString (utf8 message).length ++ "\r\n\r\n" ++ message)

end Channel

end BitLang.Editor
