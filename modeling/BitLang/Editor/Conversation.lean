/-
# The conversation with an editor

An editor sends requests, which carry an identifier and are answered, and
notifications, which are not.  The first request initializes the server; before it,
and after the server has been shut down, everything else is refused.
-/

import BitLang.Editor.Channel
import BitLang.Editor.Json
import BitLang.Editor.Server
import BitLang.Editor.Shape

namespace BitLang.Editor

/-- A message from an editor: a request, which is a notification if it has no
identifier, or an answer to a request that the server never made. -/
inductive Message where
  | request (identifier : Option Json) (method : String) (parameters : Option Json)
  | answer

/-- Reads an identifier: a text or a whole number of 64 bits. -/
def readIdentifier? : Json → Option (Option Json)
  | .null => some none
  | .string text => some (some (.string text))
  | .number spelling =>
    match Numeral.read (utf8 spelling) with
    | .ok value => some (some (.ofNat (value % 0x10000000000000000).toNat))
    | .error _ => none
  | _ => none

/-- The value is null. -/
def isNull : Json → Bool
  | .null => true
  | _ => false

/-- A value that can identify an answer: null, a text or a natural number of 64 bits. -/
def isAnswerIdentifier : Json → Bool
  | .null | .string _ => true
  | .number spelling =>
    let digits := spelling.toList
    digits.all Char.isDigit && Numeral.ofDigits 10 digits < 0x10000000000000000
  | _ => false

/-- What an answer says went wrong. -/
def errorShape : Shape :=
  .record "Error" "jsonrpc2.Error"
    [Shape.field "code" (.whole (-0x8000000000000000) 0x7FFFFFFFFFFFFFFF "int64"),
      Shape.field "message" .plainText]

/-- Reads a message.  A request has a method, and an answer a result or an error; one
that has both or neither is no message. -/
def Message.read? (text : Bytes) : Option Message := do
  let json ← Json.read? text
  let methods := json.membersLike "method"
  let errors := json.membersLike "error"
  let isRequest := methods.getLast?.any fun method => !isNull method
  let isAnswer := !(json.membersLike "result").isEmpty
    || errors.getLast?.any fun error => !isNull error
  if !methods.all fun method => isNull method || method.text?.isSome then none
  else if isRequest && !isAnswer then
    let method ← (← json.member? "method").text?
    let identifier ← readIdentifier? ((json.member? "id").getD .null)
    some (.request identifier method (json.member? "params"))
  else if isAnswer && !isRequest && (json.membersLike "id").all isAnswerIdentifier
      && errors.all fun error => (errorShape.complaint? error).isNone then some .answer
  else none

/-- Why a request has no result. -/
inductive Refusal where
  | notInitialized
  | unknownMethod (name : String)
  | badParameters (complaint : String)
deriving DecidableEq, Repr

/-- The number and the text of a refusal. -/
def Refusal.json : Refusal → Json
  | notInitialized =>
    .object [("code", .number "-32600"), ("message", .string "server not initialized")]
  | unknownMethod name =>
    .object [("code", .number "-32601"), ("message", .string ("method not supported: " ++ name))]
  | badParameters complaint =>
    .object [("code", .number "-32602"), ("message", .string complaint)]

/-- A location as an object. -/
def Location.json (location : Location) : Json :=
  .object [("line", .ofNat location.line), ("character", .ofNat location.character)]

/-- A range as an object. -/
def Range.json (range : Range) : Json :=
  .object [("start", range.start.json), ("end", range.stop.json)]

/-- A diagnostic as an object. -/
def Diagnostic.json (d : Diagnostic) : Json :=
  .object [("range", (Range.mk d.location d.location).json), ("severity", .ofNat d.severity.code),
    ("source", .string serverName), ("message", .ofText d.message)]

/-- A hover as an object. -/
def Hover.json (h : Hover) : Json :=
  .object [("contents", .object [("kind", .string "markdown"), ("value", .ofText h.text)]),
    ("range", h.range.json)]

/-- What the server can do. -/
def capabilities : Json :=
  .object [
    ("capabilities", .object [
      ("textDocumentSync", .object [("openClose", .bool true), ("change", .ofNat 1)]),
      ("hoverProvider", .bool true)]),
    ("serverInfo", .object [("name", .string serverName), ("version", .string Server.version)])]

/-- A text of the parameters; a missing one is empty. -/
def textAt (parameters : Json) (path : List String) : String :=
  (parameters.at? path >>= Json.text?).getD ""

/-- A count of the parameters; a missing one is zero. -/
def countAt (parameters : Json) (path : List String) : Nat :=
  match parameters.at? path with
  | some (.number spelling) => ((Numeral.read (utf8 spelling)).toOption.getD 0).toNat
  | _ => 0

/-- The changes of a document. -/
def changesIn (parameters : Json) : List Change :=
  match parameters.member? "contentChanges" with
  | some (.array changes) => changes.map fun change =>
    if (change.member? "range").any fun range => !isNull range then .ranged
    else .whole (utf8 (textAt change ["text"]))
  | _ => []

/-- The server, and whether it has been initialized and not shut down. -/
structure Conversation where
  server : Server
  isReady : Bool

/-- What a message leads to: the conversation after it, the texts that are sent of
the server's own accord, and the result of a request. -/
structure Response where
  conversation : Conversation
  published : List Json
  result : Except Refusal Json

namespace Conversation

/-- A conversation that has not begun. -/
def start (limit : Int) : Conversation := ⟨.start limit, false⟩

/-- The notification that publishes diagnostics. -/
def publication (name : String) (diagnostics : List Diagnostic) : Json :=
  .object [("jsonrpc", .string "2.0"), ("method", .string "textDocument/publishDiagnostics"),
    ("params", .object [("uri", .string name),
      ("diagnostics", .array (diagnostics.map Diagnostic.json))])]

/-- Nothing but a refusal. -/
def refuse (c : Conversation) (refusal : Refusal) : Response := ⟨c, [], .error refusal⟩

/-- Acts on a method with parameters of its shape. -/
def perform (c : Conversation) (method : String) (parameters : Json) : Response :=
  let name := textAt parameters ["textDocument", "uri"]
  match method with
  | "initialize" => ⟨{ c with isReady := true }, [], .ok capabilities⟩
  | "textDocument/didOpen" =>
    let (server, diagnostics) :=
      c.server.put name (utf8 (textAt parameters ["textDocument", "text"]))
    ⟨{ c with server }, [publication name diagnostics], .ok .null⟩
  | "textDocument/didChange" =>
    let (server, diagnostics) := c.server.change name (changesIn parameters)
    ⟨{ c with server }, (diagnostics.map (publication name)).toList, .ok .null⟩
  | "textDocument/didClose" =>
    ⟨{ c with server := c.server.forget name }, [publication name []], .ok .null⟩
  | "textDocument/hover" =>
    let location : Location :=
      ⟨countAt parameters ["position", "line"], countAt parameters ["position", "character"]⟩
    ⟨c, [], .ok (((c.server.hover name location).map Hover.json).getD .null)⟩
  | _ => ⟨c, [], .ok .null⟩

/-- Acts on a request.  Parameters that are missing altogether are refused; those
that are null stand for none. -/
def act (c : Conversation) (method : String) (parameters : Option Json) : Response :=
  if method ≠ "initialize" ∧ !c.isReady then c.refuse .notInitialized
  else if method = "shutdown" then ⟨⟨c.server.shutdown, false⟩, [], .ok .null⟩
  else match Shape.ofMethod? method, parameters with
    | none, _ => c.refuse (.unknownMethod method)
    | some _, none => c.refuse (.badParameters "unexpected end of JSON input")
    | some shape, some parameters =>
      match shape.complaint? parameters with
      | some complaint => c.refuse (.badParameters complaint)
      | none => c.perform method parameters

/-- The answer to a request. -/
def answer (identifier : Json) : Except Refusal Json → Json
  | .ok result =>
    .object [("id", identifier), ("result", result), ("jsonrpc", .string "2.0")]
  | .error refusal =>
    .object [("id", identifier), ("error", refusal.json), ("jsonrpc", .string "2.0")]

/-- Takes in a message: the conversation after it and what is sent.  A text that is
no message, or one that asks to leave, ends the conversation; an answer changes
nothing. -/
def accept (c : Conversation) (text : Bytes) : Option (Conversation × Bytes) := do
  match ← Message.read? text with
  | .answer => some (c, [])
  | .request identifier method parameters =>
    if method = "exit" then none
    else
      let response := c.act method parameters
      let answers := identifier.toList.map fun identifier => answer identifier response.result
      let sent := (response.published ++ answers).flatMap fun json => Channel.frame json.render
      some (response.conversation, sent)

/-- Takes in messages one by one, up to one that ends the conversation, and gives
what is sent. -/
def transcript (c : Conversation) : List Bytes → Bytes
  | [] => []
  | text :: rest =>
    match c.accept text with
    | none => []
    | some (c, sent) => sent ++ c.transcript rest

end Conversation

end BitLang.Editor
