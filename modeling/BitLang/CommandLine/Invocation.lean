/-
# Invocations

An invocation of the program reads its options and settings and then either
finishes at once or goes on with the input: as a session at the console or in
conversation with an editor.  All use of files goes through the means it is given.
-/

import BitLang.CommandLine.Console
import BitLang.CommandLine.Options
import BitLang.Editor.Conversation
import BitLang.ResultStore.Image
import BitLang.ResultStore.Location
import BitLang.Settings

namespace BitLang

/-- What an invocation printed, what it reported as errors, and its exit code. -/
structure Report where
  exitCode : Nat
  output : Bytes
  errors : Bytes
deriving DecidableEq, Repr

/-- What an invocation does once its options and settings are known. -/
inductive Activity where
  | finish (report : Report)
  | converse (session : Session)
  | serve (conversation : Editor.Conversation)

namespace Invocation

/-- Finishes with an error. -/
def fail (exitCode : Nat) (message : Bytes) : Activity :=
  .finish ⟨exitCode, [], Session.errorLine message⟩

/-- Finishes with an account of how the program is used. -/
def explain (exitCode : Nat) (complaint : Option Bytes) : Activity :=
  let complaint := (complaint.map fun text => text ++ [0x0A]).getD []
  .finish ⟨exitCode, [], complaint ++ utf8 Options.usage⟩

/-- How much is logged when much is asked for. -/
def verbose : Int := 2

/-- The settings as the options change them. -/
def adjust (s : Settings) (o : Options) : Settings :=
  { s with
    format := if o.format = [] then s.format else o.format
    limit := if 0 < o.limit then o.limit else s.limit
    verbosity := if o.isVerbose then verbose else s.verbosity }

section

variable {m : Type → Type} [Monad m]

/-- The settings that apply: those of the file that the options name, or of the
nearest file around the working directory, or the defaults. -/
def settingsFor (files : FileAccess m) (here : Bytes) (o : Options) :
    m (Except SettingsError Settings) := do
  if o.settingsPath ≠ [] then Settings.load files.toFileReader here o.settingsPath
  else
    let found ← Settings.find files.toFileReader here here
    return found.map fun settings => settings.getD .default

/-- Opens the store at a path and makes it if it is missing, after the directories
around it; nothing if that is not possible. -/
def openStore (files : FileAccess m) (path : Bytes) : m (Option ResultStore) := do
  match ← files.makeDirectories (Path.parent path), StoreLocation.file? path with
  | .ok _, some file =>
    match ← files.append file [] with
    | .error _ => return none
    | .ok _ =>
      match ← files.read file with
      | .error _ => return none
      | .ok bytes => return ResultStore.ofImage? bytes
  | _, _ => return none

/-- Runs a program, with a store unless the path for it is empty. -/
def evaluate (files : FileAccess m) (runner : Runner) (storePath source : Bytes) :
    m Report := do
  let store ← if storePath = [] then pure none else openStore files storePath
  let run := runner.run store source
  if let some store := run.store then
    let _ ← files.write (StoreLocation.file storePath) store.image
  match run.error with
  | none => return ⟨0, run.output, []⟩
  | some error => return ⟨1, run.output, Session.errorLine error.message⟩

/-- The program to run: the expression of the options or else the file that the one
operand names.  Without either it is empty, and more operands cannot be taken. -/
def sourceFor (files : FileAccess m) (o : Options) : m (Except Activity Bytes) := do
  if o.expression ≠ [] then return .ok o.expression
  else match o.operands with
    | [] => return .ok []
    | [path] => return (← files.read path).mapError fun error => fail 1 error.message
    | _ => return .error (explain 2 none)

/-- Makes the file that the log goes to, unless it goes to the error stream. -/
def openLog (files : FileAccess m) (path : Bytes) : m (Except FileError Unit) := do
  if path = [] then return .ok () else files.append path []

/-- Does what the options ask for under the settings. -/
def perform (files : FileAccess m) (o : Options) (settings : Settings) : m Activity := do
  if o.servesEditor then return .serve (.start settings.limit)
  else match ← sourceFor files o with
    | .error activity => return activity
    | .ok source =>
      if o.isInteractive ∨ (o.expression = [] ∧ o.operands = []) then
        return .converse (.start settings.limit settings.format)
      else
        let runner := ⟨settings.limit, settings.format, o.showTokens, o.showTree⟩
        let storePath := if o.skipsStore then [] else settings.storeFile
        return .finish (← evaluate files runner storePath source)

/-- Starts the program in the directory `here`.  Bad options come before bad
settings, and those before a format that the options name and does not exist. -/
def start (files : FileAccess m) (here : Bytes) (arguments : List Bytes) : m Activity := do
  match Options.read arguments with
  | .error .help => return explain 0 none
  | .error rejection => return explain 2 rejection.message?
  | .ok o =>
    match ← settingsFor files here o with
    | .error error => return fail 1 error.message
    | .ok settings =>
      if o.format ≠ [] ∧ (Format.ofName? o.format).isNone then
        return fail 2 (RunError.unknownFormat o.format).message
      else
        let settings := adjust settings o
        match ← openLog files settings.logFile with
        | .error error =>
          return .finish ⟨1, [], utf8 "log file error: " ++ error.message ++ [0x0A]⟩
        | .ok _ => perform files o settings

/-- The file with the history of the console. -/
def historyPath (home : Bytes) : Bytes := Path.join home Console.historyName

/-- Goes on with all of the input at once. -/
def conduct (files : FileAccess m) (home input : Bytes) : Activity → m Report
  | .finish report => return report
  | .converse session => do
    let stored ← files.read (historyPath home)
    let console := Console.start session (stored.toOption.getD [])
    let (console, output, errors) := console.converse (Line.list input)
    let _ ← files.write (historyPath home) console.history.text
    return ⟨0, utf8 Console.banner ++ output, errors⟩
  | .serve conversation =>
    return ⟨0, conversation.transcript (Editor.Channel.start.messages input), []⟩

/-- Runs the program in the directory `here` on all of its input at once. -/
def run (files : FileAccess m) (here home : Bytes) (arguments : List Bytes) (input : Bytes) :
    m Report := do
  conduct files home input (← start files here arguments)

end

end Invocation

end BitLang
