/-
# Reading expressions

Operands side by side form a chain that nests to the left.  A colon makes the
operand before it the pattern of a function whose body is all that follows up to
the end of the group.  A semicolon, an equals sign, a closing mark and the end of
the text end a group; what encloses it decides whether they may.

The reader is driven by an amount of fuel.  Every step spends one unit, and twice
the number of tokens always suffices for tokens that end with the end of input.
A list without that final token may ask for the token behind its end over and
over; it then runs out of fuel.
-/

import BitLang.BitSeq.Integer
import BitLang.Expr.Basic
import BitLang.SyntaxError
import BitLang.Token.Scanner

namespace BitLang

/-- Why no tree was read: the text is malformed, there were no tokens at all, or
the tokens stop without an end of input and the reader waits for it forever. -/
inductive ParseError where
  | malformed (error : SyntaxError)
  | noTokens
  | endless
deriving DecidableEq, Repr

namespace ParseError

/-- The error as it is reported. -/
def message : ParseError → Bytes
  | malformed error => error.message
  | noTokens => utf8 "no tokens"
  | endless => utf8 "tokens without an end"

/-- More text could still make the input valid. -/
def isIncomplete : ParseError → Bool
  | malformed error => error.isIncomplete
  | _ => false

end ParseError

namespace Parser

/-- What was read of a group or of a set: its tree, the token that ended it and the
tokens behind that one.  A group that runs out of tokens is ended by the last of
them, and a set by its closing brace. -/
structure Group where
  tree : Expr
  stop : Token
  rest : List Token

/-- Rejects the text at a position. -/
def reject {α : Type} (pos : Position) (cause : SyntaxError.Cause) : Except ParseError α :=
  .error (.malformed ⟨pos, cause⟩)

/-- Accepts a nesting depth within the bound. -/
def checkDepth (depth : Nat) (pos : Position) : Except ParseError Unit :=
  if maxNesting < depth then reject pos .tooDeep else .ok ()

/-- The position of the token that comes next, or of the last one. -/
def nextPos (last : Token) (tokens : List Token) : Position :=
  match tokens with
  | token :: _ => token.pos
  | [] => last.pos

/-- The statements of a set read so far: the key waiting for its value, how many
values came without a key, and the entries in order. -/
structure Statements where
  key : Expr
  keyless : Nat
  entries : Array (Expr × Expr)

/-- Ends a statement with its value.  A statement without a value adds nothing, a
value without a key is keyed by how many came before it. -/
def Statements.close (s : Statements) (value : Expr) : Statements :=
  if value.isAbsent then { s with key := .absent }
  else if s.key.isAbsent then
    let key := .literal ⟨value.pos, value.pos⟩ (.encode s.keyless)
    ⟨.absent, s.keyless + 1, s.entries.push (key, value)⟩
  else ⟨.absent, s.keyless, s.entries.push (s.key, value)⟩

mutual

/-- Reads the operands of a group onto `chain`, `last` being the token before. -/
def operands : (fuel depth : Nat) → (chain : Expr) → (last : Token) → List Token →
    Except ParseError Group
  | 0, _, _, _, _ => .error .endless
  | _ + 1, _, chain, last, [] => .ok ⟨chain, last, []⟩
  | fuel + 1, depth, chain, _, token :: rest =>
    match token.lexeme with
    | .literal bits =>
      operands fuel depth (chain.follow (.literal token.span bits) token.pos) token rest
    | .scope => operands fuel depth (chain.follow (.scope token.span) token.pos) token rest
    | .endOfInput | .semicolon | .equals | .closeParen | .closeBrace => .ok ⟨chain, token, rest⟩
    | .openParen => do
      checkDepth (depth + 1) (nextPos token rest)
      let inner ← operands fuel (depth + 1) .absent token rest
      match inner.stop.lexeme with
      | .closeParen =>
        operands fuel depth (chain.follow inner.tree token.pos) inner.stop inner.rest
      | .endOfInput => reject token.pos .unclosedParen
      | found => reject inner.stop.pos (.expectedCloseParen found)
    | .openBrace => do
      checkDepth (depth + 1) token.pos
      let inner ← statements fuel (depth + 1) token ⟨.absent, 0, #[]⟩ token rest
      operands fuel depth (chain.follow inner.tree token.pos) inner.stop inner.rest
    | .colon => do
      let (outer, pattern) := chain.splitLast
      checkDepth (depth + 1) (nextPos token rest)
      let body ← operands fuel (depth + 1) .absent token rest
      let start := (pattern.spanOr token.pos).start
      let stop := (body.tree.spanOr body.stop.pos).stop
      operands fuel depth (outer.follow (.function ⟨start, stop⟩ pattern body.tree) start) token
        (body.stop :: body.rest)
    | .fault | .unassigned _ => reject token.pos (.unexpectedToken token)

/-- Reads the statements of the set opened by `opening`. -/
def statements : (fuel depth : Nat) → (opening : Token) → Statements → (last : Token) →
    List Token → Except ParseError Group
  | 0, _, _, _, _, _ => .error .endless
  | fuel + 1, depth, opening, done, last, tokens => do
    let value ← operands fuel depth .absent last tokens
    match value.stop.lexeme with
    | .endOfInput => reject opening.pos .unterminatedSet
    | .closeParen => reject value.stop.pos .closeParenInSet
    | .equals =>
      if value.tree.isAbsent then reject value.stop.pos .missingKey
      else statements fuel depth opening { done with key := value.tree } value.stop value.rest
    | .semicolon =>
      statements fuel depth opening (done.close value.tree) value.stop value.rest
    | .closeBrace =>
      let entries := (done.close value.tree).entries.toList
      .ok ⟨.set ⟨opening.pos, value.stop.stop⟩ entries, value.stop, value.rest⟩
    | _ => statements fuel depth opening done value.stop value.rest

end

end Parser

namespace Expr

/-- Reads a whole list of tokens as one expression. -/
def ofTokens (tokens : List Token) : Except ParseError Expr :=
  match tokens with
  | [] => .error .noTokens
  | first :: _ => do
    let group ← Parser.operands (2 * tokens.length + 1) 0 .absent first tokens
    match group.stop.lexeme with
    | .endOfInput => .ok group.tree
    | found => Parser.reject group.stop.pos (.strayTerminator found)

end Expr

namespace Token

/-- The tokens of a text, if none of them is a fault. -/
def tokenize (source : Bytes) : Except SyntaxError (List Token) :=
  let tokens := scan source
  match firstFault? tokens with
  | some token => .error ⟨token.pos, .fault token.text⟩
  | none => .ok tokens

end Token

namespace Expr

/-- Reads a source text as one expression. -/
def parse (source : Bytes) : Except ParseError Expr :=
  match Token.tokenize source with
  | .error error => .error (.malformed error)
  | .ok tokens => ofTokens tokens

end Expr

end BitLang
