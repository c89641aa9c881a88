/-
# Running programs

A program is read, evaluated under the empty scope and its value printed in one of
three formats, on request after a listing of its tokens and its tree.  Results are
looked up in a store first and put there afterwards, under a key that holds the
fingerprint of the tree and the level limit.
-/

import BitLang.Eval.Machine
import BitLang.Expr.Fingerprint
import BitLang.Expr.Outline
import BitLang.Expr.Parser
import BitLang.ResultStore
import BitLang.Value.Inspection

namespace BitLang

/-- The formats a value is printed in. -/
inductive Format where
  | inspect
  | hex
  | cbor
deriving DecidableEq, Repr

namespace Format

/-- The formats, in the order they are listed in. -/
def all : List Format := [inspect, hex, cbor]

/-- The name of a format. -/
def name : Format → String
  | inspect => "inspect"
  | hex => "hex"
  | cbor => "cbor"

/-- The format of a given name. -/
def ofName? (name : Bytes) : Option Format := all.find? fun format => utf8 format.name == name

end Format

/-- Why a program has no printed result. -/
inductive RunError where
  | unreadable (error : ParseError)
  | failed (error : EvalError)
  | exhausted
  | notSerializable
  | notBits (kind : Kind)
  | unknownFormat (name : Bytes)
deriving DecidableEq, Repr

/-- The error as it is reported. -/
def RunError.message : RunError → Bytes
  | unreadable error => error.message
  | failed error => utf8 error.message
  | exhausted => utf8 "evaluation did not end"
  | notSerializable => utf8 Wire.notSerializable
  | notBits kind => utf8 ("hex output needs a bit sequence, got " ++ kind.name)
  | unknownFormat name => utf8 ("unknown output format " ++ Quoted.quote name)

/-- A value in the format of the given name; no name stands for inspection. -/
def Value.print (v : Value) (format : Bytes) : Except RunError Bytes :=
  if format = [] then .ok (utf8 v.format)
  else match Format.ofName? format with
    | some .inspect => .ok (utf8 v.format)
    | some .hex =>
      match v with
      | .bits b => .ok (utf8 (Hex.encode b.bytes ++ "\n"))
      | v => .error (.notBits v.kind)
    | some .cbor =>
      match v.marshal? with
      | some bytes => .ok bytes
      | none => .error .notSerializable
    | none => .error (.unknownFormat format)

/-- The value of an expression, or why it has none. -/
def Expr.result (limit : Int) (scope : Scope) (e : Expr) : Except RunError Value :=
  match e.eval limit scope with
  | .value v _ => .ok v
  | .failure error _ => .error (.failed error)
  | .outOfFuel => .error .exhausted

/-- The tokens of a text, one to a line with line and column. -/
def listTokens (source : Bytes) : Except SyntaxError Bytes := do
  let tokens ← Token.tokenize source
  let line (token : Token) : Bytes :=
    utf8 (toString token.pos.line ++ ":" ++ toString token.pos.column ++ "\t") ++ token.render
      ++ utf8 "\n"
  .ok (utf8 "TOKENS\n" ++ tokens.flatMap line ++ utf8 "\n")

/-- The outline of a tree and its fingerprint. -/
def listTree (e : Expr) : String := e.outline ++ "hash: " ++ e.fingerprintHex ++ "\n"

/-- How programs are run. -/
structure Runner where
  limit : Int
  format : Bytes
  showTokens : Bool
  showTree : Bool
deriving Repr

/-- What a run wrote, why it ended early if it did, and the store after it. -/
structure Run where
  output : Bytes
  error : Option RunError
  store : Option ResultStore

namespace Runner

/-- The key of a program's result. -/
def key (limit : Int) (e : Expr) : Bytes := utf8 (e.fingerprintHex ++ "/" ++ toString limit)

/-- The value of a program, from the store if it is there.  A store that refuses
or holds something unreadable makes no difference, nor does a value that cannot be
stored. -/
def evaluate (r : Runner) (store : Option ResultStore) (e : Expr) :
    Except RunError Value × Option ResultStore :=
  let key := key r.limit e
  match store with
  | none => (e.result r.limit .empty, none)
  | some s =>
    match s.get key with
    | .ok v => (.ok v, store)
    | .error _ =>
      match e.result r.limit .empty with
      | .error error => (.error error, store)
      | .ok v => (.ok v, some ((s.put key v).toOption.getD s))

/-- Runs one program. -/
def run (r : Runner) (store : Option ResultStore) (source : Bytes) : Run :=
  match if r.showTokens then listTokens source else .ok [] with
  | .error error => ⟨[], some (.unreadable (.malformed error)), store⟩
  | .ok tokens =>
    match Expr.parse source with
    | .error error => ⟨tokens, some (.unreadable error), store⟩
    | .ok e =>
      let tree := if r.showTree then utf8 ("TREE\n" ++ listTree e ++ "\n") else []
      match r.evaluate store e with
      | (.error error, store) => ⟨tokens ++ tree, some error, store⟩
      | (.ok v, store) =>
        match v.print r.format with
        | .error error => ⟨tokens ++ tree, some error, store⟩
        | .ok printed => ⟨tokens ++ tree ++ printed, none, store⟩

end Runner

end BitLang
