/-
# Diagnostics

A document that does not parse has an error, and one that parses but fails to
evaluate has a warning, each at the place it is attributed to.
-/

import BitLang.Editor.Location
import BitLang.Editor.Worker
import BitLang.Expr.Parser

namespace BitLang.Editor

/-- How bad a diagnostic is. -/
inductive Severity where
  | error
  | warning
deriving DecidableEq, Repr

/-- The number of a severity. -/
def Severity.code : Severity → Nat
  | error => 1
  | warning => 2

/-- A message about a place in a document. -/
structure Diagnostic where
  location : Location
  severity : Severity
  message : Bytes
deriving DecidableEq, Repr

/-- The name under which diagnostics are published. -/
def serverName : String := "nick-lsp"

/-- The level limit for documents unless another is chosen. -/
def defaultLimit : Int := 2000

/-- The level limit for documents; one that is not positive stands for the default. -/
def limitOr (limit : Int) : Int := if limit ≤ 0 then defaultLimit else limit

/-- What is wrong with a document.  A stopped worker evaluates nothing. -/
def diagnose (worker : Worker) (limit : Int) (text : Bytes) : List Diagnostic :=
  match Expr.parse text with
  | .error (.malformed e) => [⟨.ofPosition e.pos, .error, e.cause.describe⟩]
  | .error _ => []
  | .ok e =>
    match worker.perform (.ok (e.eval limit .empty)) with
    | .ok (.failure error _) => [⟨.ofPosition error.pos, .warning, utf8 error.describe⟩]
    | _ => []

end BitLang.Editor
