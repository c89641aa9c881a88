/-
# Hovering

Pointing at a token shows what it is: the role of a punctuation mark, the bits of
a literal together with its other readings, or what is wrong with a fault.
-/

import BitLang.Editor.Location
import BitLang.Value.Inspection

namespace BitLang.Editor

/-- A description and the stretch of text it is about. -/
structure Hover where
  text : Bytes
  range : Range
deriving DecidableEq, Repr

/-- The bits of a literal, and the bytes, the integer and the text they may be. -/
def describeLiteral (b : BitSeq) : String :=
  "**literal** " ++ toString b.len ++ " bits\n\n- bits: " ++ b.preview ++ "\n"
    ++ (if b.bytes.isEmpty then "" else "- hex: \x60" ++ Hex.encode b.bytes ++ "\x60\n")
    ++ (if b.len ≤ 64 then "- integer: " ++ toString b.decode ++ "\n" else "")
    ++ (match b.text? with
      | some text => "- text: " ++ Quoted.quote text ++ "\n"
      | none => "")

/-- What is shown for a token. -/
def describe (token : Token) : Option Bytes :=
  match token.lexeme with
  | .literal b => some (utf8 (describeLiteral b))
  | .fault => some (utf8 "**error** " ++ token.text)
  | .scope => some (utf8 "**$** scope reference: the current scope as a set")
  | .openParen => some (utf8 "**(** group start")
  | .closeParen => some (utf8 "**)** group end")
  | .openBrace => some (utf8 "**\x7b** set constructor start")
  | .closeBrace => some (utf8 "**\x7d** set constructor end")
  | .equals => some (utf8 "**=** separates a set entry's key from its value")
  | .semicolon => some (utf8 "**;** ends a set statement")
  | .colon => some (utf8 "**:** function constructor: \x60pattern : body\x60")
  | .endOfInput | .unassigned _ => none

/-- What is shown at a location of a text. -/
def hover (text : Bytes) (location : Location) : Option Hover := do
  let token ← tokenAt text (offsetOf text location)
  let description ← describe token
  some ⟨description, tokenRange token⟩

end BitLang.Editor
