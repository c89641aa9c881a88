/-
# Shapes of parameters

The parameters of a method have to have a shape: records with fields of given types,
of which any may be null or missing, and others may stand beside them.  The first
value of the wrong type is complained about, with the record and the path of fields
that lead to it.
-/

import BitLang.Editor.Json
import BitLang.Text.Numeral

namespace BitLang.Editor

/-- What a value has to be.  Types and records carry the names that complaints give
them, and a field the names that lead to it within its record; a token is a text or a
whole number of 32 bits. -/
inductive Shape where
  | anything
  | text (type : String)
  | whole (least most : Int) (type : String)
  | token
  | list (type : String) (element : Shape)
  | record (name type : String) (fields : List (String × List String × Shape))
deriving Repr, Inhabited

/-- Where a value stands: the innermost record and the fields that lead there from
the outermost. -/
structure Place where
  record : String
  fields : List String
deriving Repr

/-- The complaint that something else was found where a type belongs. -/
def Place.complain (place : Place) (found type : String) : String :=
  "json: cannot unmarshal " ++ found ++ " into Go "
    ++ (if place.fields.isEmpty then "value"
      else "struct field " ++ place.record ++ "." ++ ".".intercalate place.fields)
    ++ " of type " ++ type

namespace Shape

/-- A whole number of 32 bits. -/
def integer : Shape := .whole (-0x80000000) 0x7FFFFFFF "int32"

/-- A natural number of 32 bits. -/
def natural : Shape := .whole 0 0xFFFFFFFF "uint32"

/-- A text without a type of its own. -/
def plainText : Shape := .text "string"

/-- The name of the type that a shape asks for. -/
def type : Shape → String
  | anything => ""
  | token => "string"
  | text type | whole _ _ type | list type _ | record _ type _ => type

/-- A field of a record itself. -/
def field (name : String) (shape : Shape) : String × List String × Shape := (name, [name], shape)

/-- A field that a record has from a part that it shares with others. -/
def shared (part name : String) (shape : Shape) : String × List String × Shape :=
  (name, [part, name], shape)

/-- The path and the shape of the field with a given name; one that differs in case
serves if there is none. -/
def field? (fields : List (String × List String × Shape)) (name : String) :
    Option (List String × Shape) :=
  ((fields.find? fun (known, _) => known == name).or
    (fields.find? fun (known, _) => sameName name known)).map Prod.snd

/-- The spelling of a whole number within bounds. -/
def isWithin (least most : Int) (spelling : String) : Bool :=
  match Numeral.read (utf8 spelling) with
  | .ok value => least ≤ value && value ≤ most
  | .error _ => false

/-- What is wrong with a number. -/
def numberComplaint? (shape : Shape) (place : Place) (spelling : String) : Option String :=
  match shape with
  | anything => none
  | whole least most type =>
    if isWithin least most spelling then none
    else some (place.complain ("number " ++ spelling) type)
  | token =>
    if isWithin (-0x80000000) 0x7FFFFFFF spelling then none
    else some (place.complain "number" shape.type)
  | shape => some (place.complain "number" shape.type)

/-- What is wrong with a text. -/
def textComplaint? (shape : Shape) (place : Place) : Option String :=
  match shape with
  | anything | token | text _ => none
  | shape => some (place.complain "string" shape.type)

mutual

/-- The first thing that is wrong with a value. -/
def complaintAt? (shape : Shape) (place : Place) : Json → Option String
  | .null => none
  | .bool _ =>
    match shape with
    | anything => none
    | shape => some (place.complain "bool" shape.type)
  | .number spelling => shape.numberComplaint? place spelling
  | .string _ => shape.textComplaint? place
  | .array items =>
    match shape with
    | anything => none
    | list _ element => itemsComplaint? element place items
    | shape => some (place.complain "array" shape.type)
  | .object members =>
    match shape with
    | anything => none
    | record name _ fields => membersComplaint? name fields place.fields members
    | shape => some (place.complain "object" shape.type)

/-- The first thing that is wrong with the items of an array. -/
def itemsComplaint? (element : Shape) (place : Place) : List Json → Option String
  | [] => none
  | item :: items => (complaintAt? element place item).or (itemsComplaint? element place items)

/-- The first thing that is wrong with the members of a record that `path` leads to. -/
def membersComplaint? (name : String) (fields : List (String × List String × Shape))
    (path : List String) : List (String × Json) → Option String
  | [] => none
  | (key, value) :: members =>
    let rest := membersComplaint? name fields path members
    match field? fields key with
    | none => rest
    | some (inner, shape) => (complaintAt? shape ⟨name, path ++ inner⟩ value).or rest

end

/-- The first thing that is wrong with parameters, in the order of the names of
their members. -/
def complaint? (shape : Shape) (parameters : Json) : Option String :=
  shape.complaintAt? ⟨"", []⟩ parameters.canonical

/-- What an editor says about itself. -/
def clientInfo : Shape :=
  .record "" ("struct \x7b Name string \"json:\\\"name\\\"\"; "
      ++ "Version *string \"json:\\\"version,omitempty\\\"\" \x7d")
    [field "name" plainText, field "version" plainText]

/-- What an editor can do.  The server takes no notice of it. -/
def clientCapabilities : Shape :=
  .record "ClientCapabilities" "protocol.ClientCapabilities"
    [field "textDocument" (.record "TextDocumentClientCapabilities"
      "protocol.TextDocumentClientCapabilities" [])]

/-- A directory that an editor works in. -/
def workspaceFolder : Shape :=
  .record "WorkspaceFolder" "protocol.WorkspaceFolder"
    [field "uri" plainText, field "name" plainText]

/-- The token by which an editor asks for reports of progress. -/
def progress : String × List String × Shape :=
  shared "WorkDoneProgressParams" "workDoneToken" token

/-- The parameters that begin a conversation. -/
def initialization : Shape :=
  .record "InitializeParams" "protocol.InitializeParams"
    [progress, field "processId" integer, field "clientInfo" clientInfo,
      field "locale" plainText, field "rootPath" plainText, field "rootUri" plainText,
      field "initializationOptions" anything, field "capabilities" clientCapabilities,
      field "trace" (.text "protocol.TraceValue"),
      field "workspaceFolders" (.list "[]protocol.WorkspaceFolder" workspaceFolder)]

/-- The name of a document. -/
def identifier : Shape :=
  .record "TextDocumentIdentifier" "protocol.TextDocumentIdentifier" [field "uri" plainText]

/-- A document as it is opened. -/
def document : Shape :=
  .record "TextDocumentItem" "protocol.TextDocumentItem"
    [field "uri" plainText, field "languageId" plainText, field "version" integer,
      field "text" plainText]

/-- The name of a document and the number of its version. -/
def versionedIdentifier : Shape :=
  .record "VersionedTextDocumentIdentifier" "protocol.VersionedTextDocumentIdentifier"
    [shared "TextDocumentIdentifier" "uri" plainText, field "version" integer]

/-- A change of a document. -/
def contentChange : Shape :=
  .record "TextDocumentContentChangeEvent" "protocol.TextDocumentContentChangeEvent"
    [field "text" plainText]

/-- A position in a document. -/
def position : Shape :=
  .record "Position" "protocol.Position" [field "line" natural, field "character" natural]

/-- The parameters of each method that takes any. -/
def ofMethod? (method : String) : Option Shape :=
  match method with
  | "initialize" => some initialization
  | "initialized" => some (.record "InitializedParams" "protocol.InitializedParams" [])
  | "$/setTrace" =>
    some (.record "SetTraceParams" "protocol.SetTraceParams"
      [field "value" (.text "protocol.TraceValue")])
  | "textDocument/didOpen" =>
    some (.record "DidOpenTextDocumentParams" "protocol.DidOpenTextDocumentParams"
      [field "textDocument" document])
  | "textDocument/didChange" =>
    some (.record "DidChangeTextDocumentParams" "protocol.DidChangeTextDocumentParams"
      [field "textDocument" versionedIdentifier,
        field "contentChanges" (.list "[]json.RawMessage" contentChange)])
  | "textDocument/didClose" =>
    some (.record "DidCloseTextDocumentParams" "protocol.DidCloseTextDocumentParams"
      [field "textDocument" identifier])
  | "textDocument/hover" =>
    some (.record "HoverParams" "protocol.HoverParams"
      [shared "TextDocumentPositionParams" "textDocument" identifier,
        shared "TextDocumentPositionParams" "position" position, progress])
  | _ => none

end Shape

end BitLang.Editor
