/-
# Settings

The settings of the program are read from a file `nick.toml`, which is looked for
in the working directory and all directories around it.  The nearest one counts,
even if it is broken.  A setting that the file does not mention keeps its default,
and a key that names no setting is an error.
-/

import BitLang.FileTree
import BitLang.Program
import BitLang.Text.CaseFold
import BitLang.Text.Quoted
import BitLang.Toml.Document

namespace BitLang

/-- The settings: the level limit, the name of the output format, how much is
logged and where, where results are stored, and the directory that relative paths
start from. -/
structure Settings where
  limit : Int
  format : Bytes
  verbosity : Int
  logPath : Bytes
  storePath : Bytes
  directory : Bytes
deriving DecidableEq, Repr

/-- A setting with a value that it cannot have. -/
inductive SettingFault where
  | limit (value : Int)
  | format (name : Bytes)
  | verbosity (value : Int)
deriving DecidableEq, Repr

/-- The fault in words. -/
def SettingFault.message : SettingFault → String
  | limit value => "eval.max-depth must be positive, got " ++ toString value
  | format name =>
    "output.format must be one of " ++ ", ".intercalate (Format.all.map Format.name)
      ++ ", got " ++ Quoted.quote name
  | verbosity value => "log.verbosity must not be negative, got " ++ toString value

/-- Why a file gives no settings. -/
inductive SettingsError where
  | unreadable (path : Bytes) (error : FileError)
  | malformed (path : Bytes)
  | unknownKeys (path : Bytes) (keys : List Toml.Key)
  | invalid (path : Bytes) (fault : SettingFault)
deriving DecidableEq, Repr

/-- The error in words. -/
def SettingsError.message : SettingsError → Bytes
  | unreadable path error => utf8 "cannot read " ++ path ++ utf8 ": " ++ error.message
  | malformed path => utf8 "parse error in " ++ path
  | unknownKeys path keys =>
    utf8 "unknown keys in " ++ path ++ utf8 (": " ++ ", ".intercalate (keys.map Toml.renderKey))
  | invalid path fault => path ++ utf8 (": " ++ fault.message)

namespace Settings

/-- The name of the file that is looked for. -/
def fileName : Bytes := utf8 "nick.toml"

/-- The settings without any file. -/
def default : Settings := ⟨Eval.defaultLimit, utf8 Format.inspect.name, 0, [], [], []⟩

/-- The first setting with a value that it cannot have. -/
def fault? (s : Settings) : Option SettingFault :=
  if s.limit ≤ 0 then some (.limit s.limit)
  else if (Format.ofName? s.format).isNone then some (.format s.format)
  else if s.verbosity < 0 then some (.verbosity s.verbosity)
  else none

/-- A path of the settings.  A relative one starts from their directory. -/
def resolve (s : Settings) (path : Bytes) : Bytes :=
  if path = [] ∨ Path.isAbsolute path ∨ s.directory = [] then path
  else Path.join s.directory path

/-- Where results are stored; empty if they are not. -/
def storeFile (s : Settings) : Bytes := s.resolve s.storePath

/-- Where the log is written; empty for the error stream. -/
def logFile (s : Settings) : Bytes := s.resolve s.logPath

/-- Sets an integer. -/
def takeInteger (node : Toml.Node) (set : Int → Settings) : Option Settings :=
  match node with
  | .value (.integer value) => some (set value)
  | _ => none

/-- Sets a text. -/
def takeText (node : Toml.Node) (set : Bytes → Settings) : Option Settings :=
  match node with
  | .value (.string text) => some (set (utf8 text))
  | _ => none

/-- The names of the sections and of the settings in each. -/
def sections : List (String × List String) :=
  [("eval", ["max-depth"]), ("output", ["format"]), ("log", ["verbosity", "file"]),
    ("cache", ["path"])]

/-- Takes one setting over; nothing if the value is of the wrong type. -/
def takeSetting (s : Settings) (name : String) (node : Toml.Node) : Option Settings :=
  match name with
  | "max-depth" => takeInteger node fun limit => { s with limit }
  | "format" => takeText node fun format => { s with format }
  | "verbosity" => takeInteger node fun verbosity => { s with verbosity }
  | "file" => takeText node fun logPath => { s with logPath }
  | "path" => takeText node fun storePath => { s with storePath }
  | _ => some s

/-- Takes the settings of a section over. -/
def takeSection (names : List String) (s : Settings) (entries : Toml.Entries) :
    Option Settings :=
  entries.foldlM (fun s (key, node) =>
    match names.find? (sameName key) with
    | some name => s.takeSetting name node
    | none => some s) s

/-- Takes all settings of a document over; nothing if a section is no table or a
setting of the wrong type. -/
def takeDocument (s : Settings) (root : Toml.Entries) : Option Settings :=
  root.foldlM (fun s (key, node) =>
    match sections.find? fun (name, _) => sameName key name, node with
    | none, _ => some s
    | some (_, names), .table entries => takeSection names s entries
    | some _, _ => none) s

/-- The keys of a document that name a section or a setting, among those that its
tree still holds. -/
def knownKeys (root : Toml.Entries) : List Toml.Key :=
  root.flatMap fun (key, node) =>
    match sections.find? fun (name, _) => sameName key name, node with
    | some (_, names), .table entries =>
      [key] :: (entries.filter fun (inner, _) => names.any (sameName inner)).map fun (inner, _) =>
        [key, inner]
    | _, _ => []

/-- The settings in the text of the file at `path`, which lies in `directory`. -/
def read (directory path text : Bytes) : Except SettingsError Settings :=
  match Toml.Document.read? text with
  | none => .error (.malformed path)
  | some document =>
    match default.takeDocument document.root with
    | none => .error (.malformed path)
    | some settings =>
      let known := knownKeys document.root
      let unknown := document.keys.filter fun key => !known.contains key
      if !unknown.isEmpty then .error (.unknownKeys path unknown)
      else
        let settings := { settings with directory }
        match settings.fault? with
        | some fault => .error (.invalid path fault)
        | none => .ok settings

section

variable {m : Type → Type} [Monad m]

/-- Loads the settings from a file, whose path is seen from the directory `here`. -/
def load (files : FileReader m) (here path : Bytes) : m (Except SettingsError Settings) := do
  match ← files.read path with
  | .error error => return .error (.unreadable path error)
  | .ok text => return read (Path.absolute here (Path.parent path)) path text

/-- Loads the settings from the first of the given directories that holds anything
under the name of the settings file; nothing if none does. -/
def loadFirst (files : FileReader m) (here : Bytes) :
    List Bytes → m (Except SettingsError (Option Settings))
  | [] => return .ok none
  | directory :: outer => do
    let path := Path.join directory fileName
    if ← files.isPresent path then return (← load files here path).map some
    else loadFirst files here outer

/-- Loads the settings that apply in a directory: those of the nearest file there
or in the directories around it. -/
def find (files : FileReader m) (here start : Bytes) :
    m (Except SettingsError (Option Settings)) :=
  loadFirst files here (Path.ancestors (Path.absolute here start))

end

end Settings

end BitLang
