/-
# The console

At the console a session is led line by line.  An entry goes on over as many lines
as it takes to complete an expression; a line that starts with a colon is a command
at once.  Entries are remembered in a history that outlives the session.
-/

import BitLang.CommandLine.Line
import BitLang.Session

namespace BitLang

/-- The entries of this and earlier sessions, latest first. -/
structure History where
  entries : List Bytes
deriving Repr

namespace History

/-- The number of entries that are remembered. -/
def limit : Nat := 1000

/-- Adds an entry, which pushes the oldest out once there are too many. -/
def push (h : History) (entry : Bytes) : History := ⟨(entry :: h.entries).take limit⟩

/-- Remembers an entry as one line, unless it is the one before again. -/
def record (h : History) (entry : Bytes) : History :=
  let line := entry.map fun byte => if byte = 0x0A then 0x20 else byte
  if h.entries.head? = some line then h else h.push line

/-- Takes in the lines of a stored history, up to the first that is too long or no
text. -/
def load (h : History) : List Line → History
  | [] => h
  | line :: rest => if line.isPart || !isUtf8 line.text then h else (h.push line.text).load rest

/-- The history as it is stored: oldest first, one entry to a line. -/
def text (h : History) : Bytes := h.entries.reverse.flatMap fun entry => entry ++ [0x0A]

end History

/-- A session at the console, and the lines of an entry that is not complete. -/
structure Console where
  session : Session
  history : History
  pending : Bytes

/-- What happens after a line: what is printed, what is reported as an error, and
whether the session is over. -/
structure Reply where
  output : Bytes
  errors : Bytes
  isOver : Bool
deriving DecidableEq, Repr

namespace Console

/-- The greeting. -/
def banner : String := "nick REPL (:help for commands, :quit or Ctrl-D to exit)\n"

/-- The name of the file with the history. -/
def historyName : Bytes := utf8 ".nick_history"

/-- A console on which nothing has been entered; `stored` is the history so far. -/
def start (session : Session) (stored : Bytes) : Console :=
  ⟨session, History.load ⟨[]⟩ (Line.list stored), []⟩

/-- What is printed before a line is read. -/
def prompt (c : Console) : Bytes := utf8 (if c.pending.isEmpty then "nick> " else "  ... ")

/-- The entry is a command. -/
def isCommand (entry : Bytes) : Bool := (trim entry).head? == some 0x3A

/-- The entry could still become an expression. -/
def isUnfinished (entry : Bytes) : Bool :=
  match Expr.parse entry with
  | .error (.malformed error) => error.isIncomplete
  | _ => false

/-- Carries out a complete entry. -/
def perform (c : Console) (entry : Bytes) : Console × Reply :=
  let c := { c with pending := [] }
  if trim entry = [] then (c, ⟨[], [], false⟩)
  else
    let c := { c with history := c.history.record entry }
    if isCommand entry then
      let command := Command.read (trim entry)
      let (session, output) := c.session.obey command
      ({ c with session }, ⟨output, [], command = .quit⟩)
    else
      match c.session.enter entry with
      | (session, .ok output) => ({ c with session }, ⟨output, [], false⟩)
      | (session, .error error) =>
        ({ c with session }, ⟨[], Session.errorLine error.message, false⟩)

/-- Takes in a line. -/
def accept (c : Console) (line : Bytes) : Console × Reply :=
  let entry := if c.pending.isEmpty then line else c.pending ++ 0x0A :: line
  if !isCommand entry && isUnfinished entry then ({ c with pending := entry }, ⟨[], [], false⟩)
  else c.perform entry

/-- Leads the session through lines: the console afterwards, what was printed and
what was reported as an error.  The end of the input ends the line. -/
def converse (c : Console) : List Line → Console × Bytes × Bytes
  | [] => (c, c.prompt ++ [0x0A], [])
  | line :: rest =>
    let (next, reply) := c.accept line.text
    if reply.isOver then (next, c.prompt ++ reply.output, reply.errors)
    else
      let (last, output, errors) := next.converse rest
      (last, c.prompt ++ reply.output ++ output, reply.errors ++ errors)

end Console

end BitLang
