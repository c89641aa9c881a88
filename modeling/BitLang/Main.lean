/-
# The program

The outer layer of the command-line program: files, the standard streams and the
exit code.
-/

import BitLang.CommandLine.Invocation

namespace BitLang

/-- What stood in the way when the system refused to use a file. -/
def faultOf (error : IO.Error) : FileFault :=
  match error with
  | .noFileOrDirectory .. => .notFound
  | .inappropriateType _ code _ => if code = 21 then .isDirectory else .notDirectory
  | .invalidArgument _ code _ => if code = 36 then .tooLong else .invalid
  | .permissionDenied .. => .refused "permission denied"
  | error => .refused (toString error)

/-- Uses the file at a path, and turns a refusal of the system into an error.  Names
of files that are no text are not supported. -/
def attempting {α : Type} (path : Bytes) (explain : FileFault → FileError)
    (action : String → IO α) : IO (Except FileError α) := do
  match FileTree.pathFault? path, String.fromUTF8? ⟨path.toArray⟩ with
  | some fault, _ => return .error (explain fault)
  | none, none => return .error (explain .notFound)
  | none, some name =>
    try
      return .ok (← action name)
    catch error =>
      return .error (explain (faultOf error))

/-- The content of a file of the system. -/
def readSystemFile (path : Bytes) : IO (Except FileError Bytes) :=
  attempting path (fun fault =>
      if fault = .isDirectory then .reading path fault else .opening path fault) fun name => do
    return (← IO.FS.readBinFile name).toList

/-- The files of the system. -/
def systemFiles : FileAccess IO where
  read := readSystemFile
  isPresent path := do
    match ← readSystemFile path with
    | .error ⟨_, _, .isDirectory⟩ | .error ⟨_, _, .refused _⟩ | .ok _ => return true
    | .error _ => return false
  write path content :=
    attempting path (.opening path) fun name => IO.FS.writeBinFile name ⟨content.toArray⟩
  append path content :=
    attempting path (.opening path) fun name => do
      let handle ← IO.FS.Handle.mk name .append
      handle.write ⟨content.toArray⟩
  makeDirectories path :=
    attempting path (fun fault => ⟨"mkdir", path, fault⟩) fun name => IO.FS.createDirAll name

/-- Prints bytes at once. -/
def print (stream : IO.FS.Stream) (bytes : Bytes) : IO Unit := do
  stream.write ⟨bytes.toArray⟩
  stream.flush

/-- The next byte of the standard input. -/
def nextByte? (input : IO.FS.Stream) : IO (Option UInt8) := do
  return (← input.read 1).toList.head?

/-- The next line of the standard input. -/
partial def nextLine? (input : IO.FS.Stream) (buffer : LineBuffer) :
    IO (LineBuffer × Option Line) := do
  match ← nextByte? input with
  | none => return (.empty, buffer.finish)
  | some byte =>
    match buffer.feed byte with
    | (buffer, none) => nextLine? input buffer
    | (buffer, some line) => return (buffer, some line)

/-- Leads a session at the console until it is over, and gives its history. -/
partial def leadSession (input output errors : IO.FS.Stream) (console : Console)
    (buffer : LineBuffer) : IO History := do
  print output console.prompt
  match ← nextLine? input buffer with
  | (_, none) =>
    print output [0x0A]
    return console.history
  | (buffer, some line) =>
    let (console, reply) := console.accept line.text
    print output reply.output
    print errors reply.errors
    if reply.isOver then return console.history
    else leadSession input output errors console buffer

/-- Answers an editor until it leaves, or the channel breaks or ends. -/
partial def serveEditor (input output : IO.FS.Stream) (conversation : Editor.Conversation)
    (channel : Editor.Channel) : IO Unit := do
  match ← nextByte? input with
  | none => print output (conversation.transcript channel.finish.toList)
  | some byte =>
    match channel.feed byte with
    | (.broken, _) => return
    | (channel, none) => serveEditor input output conversation channel
    | (channel, some message) =>
      match conversation.accept message with
      | none => return
      | some (conversation, sent) =>
        print output sent
        serveEditor input output conversation channel

/-- Goes on with the standard input as it arrives. -/
def pursue (activity : Activity) : IO UInt32 := do
  let input ← IO.getStdin
  let output ← IO.getStdout
  let errors ← IO.getStderr
  match activity with
  | .finish report =>
    print output report.output
    print errors report.errors
    return report.exitCode.toUInt32
  | .converse session =>
    let path := Invocation.historyPath (utf8 ((← IO.getEnv "HOME").getD ""))
    print output (utf8 Console.banner)
    let stored ← systemFiles.read path
    let console := Console.start session (stored.toOption.getD [])
    let history ← leadSession input output errors console .empty
    let _ ← systemFiles.write path history.text
    return 0
  | .serve conversation =>
    serveEditor input output conversation .start
    return 0

end BitLang

/-- Runs the program. -/
def main (arguments : List String) : IO UInt32 := do
  let here := BitLang.utf8 (← IO.currentDir).toString
  let arguments := arguments.map BitLang.utf8
  BitLang.pursue (← BitLang.Invocation.start BitLang.systemFiles here arguments)
