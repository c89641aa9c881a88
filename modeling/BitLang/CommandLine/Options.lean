/-
# Command-line options

Options come before the operands.  An option starts with one or two dashes; its
value follows after an equals sign or, unless it is a truth value, as the next
argument.  Two dashes alone end the options, and so does the first argument that
is none.
-/

import BitLang.Text.Numeral
import BitLang.Text.Quoted

namespace BitLang

/-- What the arguments of the program ask for. -/
structure Options where
  expression : Bytes
  showTokens : Bool
  showTree : Bool
  format : Bytes
  limit : Int
  settingsPath : Bytes
  isVerbose : Bool
  isInteractive : Bool
  servesEditor : Bool
  skipsStore : Bool
  operands : List Bytes
deriving DecidableEq, Repr

namespace Options

/-- No options and no operands. -/
def none : Options := ⟨[], false, false, [], 0, [], false, false, false, false, []⟩

/-- Why arguments cannot be taken, or a request to be told which can. -/
inductive Rejection where
  | help
  | badForm (argument : Bytes)
  | unknown (name : Bytes)
  | missingValue (name : Bytes)
  | badTruth (value name : Bytes)
  | badInteger (value name : Bytes) (fault : Numeral.Fault)
deriving DecidableEq, Repr

/-- What is said about a rejection; asking for help needs no answer but the usage. -/
def Rejection.message? : Rejection → Option Bytes
  | help => Option.none
  | badForm argument => some (utf8 "bad flag syntax: " ++ argument)
  | unknown name => some (utf8 "flag provided but not defined: -" ++ name)
  | missingValue name => some (utf8 "flag needs an argument: -" ++ name)
  | badTruth value name =>
    some (utf8 ("invalid boolean value " ++ Quoted.quote value ++ " for -") ++ name
      ++ utf8 ": parse error")
  | badInteger value name fault =>
    some (utf8 ("invalid value " ++ Quoted.quote value ++ " for flag -") ++ name
      ++ utf8 (": " ++ fault.describe))

/-- What an option takes, and what it does with it. -/
inductive Setter where
  | truth (set : Options → Bool → Options)
  | text (set : Options → Bytes → Options)
  | integer (set : Options → Int → Options)

/-- The options by name. -/
def setters : List (String × Setter) :=
  [("e", .text fun o expression => { o with expression }),
    ("tokens", .truth fun o showTokens => { o with showTokens }),
    ("tree", .truth fun o showTree => { o with showTree }),
    ("format", .text fun o format => { o with format }),
    ("max-depth", .integer fun o limit => { o with limit }),
    ("config", .text fun o settingsPath => { o with settingsPath }),
    ("v", .truth fun o isVerbose => { o with isVerbose }),
    ("i", .truth fun o isInteractive => { o with isInteractive }),
    ("lsp", .truth fun o servesEditor => { o with servesEditor }),
    ("no-cache", .truth fun o skipsStore => { o with skipsStore })]

/-- The option of a given name. -/
def setter? (name : Bytes) : Option Setter :=
  (setters.find? fun (known, _) => utf8 known == name).map Prod.snd

/-- The truth value that a text stands for. -/
def truth? (text : Bytes) : Option Bool :=
  if ["1", "t", "T", "TRUE", "true", "True"].any (utf8 · == text) then some true
  else if ["0", "f", "F", "FALSE", "false", "False"].any (utf8 · == text) then some false
  else Option.none

/-- What an argument is. -/
inductive Argument where
  | operand
  | separator
  | malformed
  | option (name : Bytes) (value : Option Bytes)
deriving DecidableEq, Repr

/-- The byte that starts an option. -/
def dash : UInt8 := 0x2D

/-- The byte between the name of an option and its value. -/
def equalsSign : UInt8 := 0x3D

/-- Takes an option apart, from behind its dashes. -/
def Argument.ofBody (body : Bytes) : Argument :=
  if body.isEmpty ∨ body.head? = some dash ∨ body.head? = some equalsSign then .malformed
  else
    let name := body.takeWhile (· != equalsSign)
    match body.drop name.length with
    | [] => .option name Option.none
    | _ :: value => .option name (some value)

/-- Tells what an argument is. -/
def Argument.read (argument : Bytes) : Argument :=
  if argument.head? ≠ some dash ∨ argument.length < 2 then .operand
  else if argument = [dash, dash] then .separator
  else
    let body := argument.drop 1
    .ofBody (if body.head? = some dash then body.drop 1 else body)

/-- Takes the value of an option that needs one. -/
def take (o : Options) (name value : Bytes) : Setter → Except Rejection Options
  | .truth set =>
    match truth? value with
    | some truth => .ok (set o truth)
    | Option.none => .error (.badTruth value name)
  | .text set => .ok (set o value)
  | .integer set =>
    match Numeral.read value with
    | .ok number => .ok (set o number)
    | .error fault => .error (.badInteger value name fault)

/-- Reads arguments after those that led to `o`. -/
def readFrom (o : Options) : List Bytes → Except Rejection Options
  | [] => .ok o
  | argument :: rest =>
    match Argument.read argument with
    | .operand => .ok { o with operands := argument :: rest }
    | .separator => .ok { o with operands := rest }
    | .malformed => .error (.badForm argument)
    | .option name value =>
      match setter? name, value with
      | Option.none, _ =>
        .error (if name = utf8 "help" ∨ name = utf8 "h" then .help else .unknown name)
      | some setter, some value => do (← o.take name value setter).readFrom rest
      | some (.truth set), Option.none => (set o true).readFrom rest
      | some setter, Option.none =>
        match rest with
        | [] => .error (.missingValue name)
        | value :: rest => do (← o.take name value setter).readFrom rest

/-- Reads the arguments of the program. -/
def read (arguments : List Bytes) : Except Rejection Options := none.readFrom arguments

/-- How the program is used. -/
def usage : String :=
  "Usage: nick [options] [file]\n\n" ++
  "Evaluates one expression and prints the resulting value.\n\n" ++
  "Options:\n" ++
  "  -config string\n" ++
  "    \tPath to nick.toml (default: search upward from the working directory)\n" ++
  "  -e string\n" ++
  "    \tEvaluate the given expression instead of a file\n" ++
  "  -format string\n" ++
  "    \tOutput format: inspect, hex or cbor (default from nick.toml, else inspect)\n" ++
  "  -i\tStart interactive REPL\n" ++
  "  -lsp\n" ++
  "    \tStart the language server on stdio\n" ++
  "  -max-depth int\n" ++
  "    \tEvaluation depth limit (default from nick.toml)\n" ++
  "  -no-cache\n" ++
  "    \tDo not read or write the result cache\n" ++
  "  -tokens\n" ++
  "    \tPrint the token stream before the result\n" ++
  "  -tree\n" ++
  "    \tPrint the parse tree and its hash before the result\n" ++
  "  -v\tVerbose (debug) logging\n" ++
  "\nExamples:\n" ++
  "  nick prog.nick             # Evaluate a file\n" ++
  "  nick -e '\x7ba; b\x7d (v: $ v)'  # Evaluate an expression\n" ++
  "  nick -tokens -tree prog.nick\n" ++
  "  nick -i                    # Start REPL\n" ++
  "  nick -lsp                  # Language server for editors\n"

end Options

end BitLang
