/-
# The document server

The server keeps the text of every open document and publishes diagnostics
whenever a text changes.
-/

import BitLang.Editor.Diagnostic
import BitLang.Editor.Hover

namespace BitLang.Editor

/-- One change to a document: a new text for all of it, or for a part, which is
not supported. -/
inductive Change where
  | whole (text : Bytes)
  | ranged
deriving DecidableEq, Repr

/-- The open documents by name, and the worker that evaluates them. -/
structure Server where
  limit : Int
  worker : Worker
  documents : List (String × Bytes)
deriving Repr

namespace Server

/-- The server's version. -/
def version : String := "0.1.0"

/-- A server without documents. -/
def start (limit : Int) : Server := ⟨limitOr limit, .running, []⟩

/-- The text of an open document. -/
def text? (s : Server) (name : String) : Option Bytes := s.documents.lookup name

/-- Forgets a document. -/
def forget (s : Server) (name : String) : Server :=
  { s with documents := s.documents.filter fun (other, _) => other != name }

/-- Takes a text as the whole of a document, and what is wrong with it. -/
def put (s : Server) (name : String) (text : Bytes) : Server × List Diagnostic :=
  let s := s.forget name
  ({ s with documents := (name, text) :: s.documents }, diagnose s.worker s.limit text)

/-- Applies changes to a document.  Only the last one counts, and only if it is a
whole text; otherwise nothing changes and nothing is published. -/
def change (s : Server) (name : String) (changes : List Change) :
    Server × Option (List Diagnostic) :=
  match changes.getLast? with
  | some (.whole text) =>
    let (s, diagnostics) := s.put name text
    (s, some diagnostics)
  | _ => (s, none)

/-- What is shown at a location of a document. -/
def hover (s : Server) (name : String) (location : Location) : Option Hover := do
  let text ← s.text? name
  Editor.hover text location

/-- Stops the evaluation of documents. -/
def shutdown (s : Server) : Server := { s with worker := .stopped }

end Server

end BitLang.Editor
