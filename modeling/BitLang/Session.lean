/-
# Interactive sessions

A session evaluates one entry after another under a scope that grows only by the
command that names the last result.  A command is a line that starts with a colon.
-/

import BitLang.Program
import BitLang.Text.Trim

namespace BitLang

/-- The state of a session: how it evaluates and prints, the scope, the last result
and the work done by the last evaluation. -/
structure Session where
  limit : Int
  format : Bytes
  scope : Scope
  last : Value
  tally : Tally

/-- A command of a session. -/
inductive Command where
  | quit
  | help
  | bind (name : Bytes)
  | showScope
  | reset
  | showTokens (source : Bytes)
  | showTree (source : Bytes)
  | showTally
  | unknown (word : Bytes)
deriving DecidableEq, Repr

namespace Command

/-- Reads a command: a word, and after the first blank its argument. -/
def read (line : Bytes) : Command :=
  let word := line.takeWhile fun byte => byte != 0x20
  let argument := trim (line.drop (word.length + 1))
  if word = utf8 ":quit" ∨ word = utf8 ":q" then quit
  else if word = utf8 ":help" ∨ word = utf8 ":h" ∨ word = utf8 ":?" then help
  else if word = utf8 ":let" then bind argument
  else if word = utf8 ":scope" then showScope
  else if word = utf8 ":reset" then reset
  else if word = utf8 ":tokens" then showTokens argument
  else if word = utf8 ":tree" then showTree argument
  else if word = utf8 ":stats" then showTally
  else unknown word

/-- What the help command shows. -/
def helpText : String :=
  "REPL Commands:\n" ++
  "  :help, :h, :?   Show this help\n" ++
  "  :let NAME       Bind the last result to NAME in the scope ($ NAME)\n" ++
  "  :scope          Show the current scope\n" ++
  "  :reset          Clear the scope\n" ++
  "  :tokens EXPR    Show the tokens of EXPR\n" ++
  "  :tree EXPR      Show the parse tree of EXPR and its hash\n" ++
  "  :stats          Show statistics of the last evaluation\n" ++
  "  :quit, :q       Exit REPL\n"

end Command

namespace Session

/-- A session with nothing bound.  Its results are read by people, so it does not
print the binary format. -/
def start (limit : Int) (format : Bytes) : Session :=
  let shown := if format = utf8 Format.cbor.name then utf8 Format.inspect.name else format
  ⟨limit, shown, .empty, .null, ⟨0, 0⟩⟩

/-- Evaluates an entry: the session after it, and what is printed or why nothing
is.  Only an entry that has a value changes the last result. -/
def enter (s : Session) (source : Bytes) : Session × Except RunError Bytes :=
  match Expr.parse source with
  | .error error => (s, .error (.unreadable error))
  | .ok e =>
    match e.eval s.limit s.scope with
    | .value v tally => ({ s with last := v, tally }, v.print s.format)
    | .failure error tally => ({ s with tally }, .error (.failed error))
    | .outOfFuel => (s, .error .exhausted)

/-- A line that reports an error. -/
def errorLine (message : Bytes) : Bytes := utf8 "Error: " ++ message ++ utf8 "\n"

/-- Obeys a command: the session after it and what is printed.  Quitting leaves
both to the caller. -/
def obey (s : Session) : Command → Session × Bytes
  | .quit => (s, [])
  | .help => (s, utf8 Command.helpText)
  | .bind name =>
    if name = [] then (s, utf8 "usage: :let NAME\n")
    else
      ({ s with scope := s.scope.insert (.ofBytes name) s.last },
        name ++ utf8 (" bound (" ++ s.last.kind.name ++ ")\n"))
  | .showScope => (s, utf8 (Value.set s.scope).format)
  | .reset => ({ s with scope := .empty, last := .null }, utf8 "scope cleared\n")
  | .showTokens source =>
    match listTokens source with
    | .ok listing => (s, listing)
    | .error error => (s, errorLine error.message)
  | .showTree source =>
    match Expr.parse source with
    | .ok e => (s, utf8 (listTree e))
    | .error error => (s, errorLine error.message)
  | .showTally =>
    (s, utf8 ("calls: " ++ toString s.tally.calls ++ ", max depth: "
      ++ toString s.tally.deepest ++ "\n"))
  | .unknown word =>
    (s, utf8 "Unknown command: " ++ word ++ utf8 " (type :help for commands)\n")

end Session

end BitLang
