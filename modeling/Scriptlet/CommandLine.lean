import Scriptlet.Session
import Scriptlet.Token.Json

namespace Scriptlet.CommandLine

/-!
# The command line

What each command prints and how it ends, given the files it can see and its input.

* `Command`, `Request` — what is asked for; `Request.parse?` reads it off the arguments.
* `Entry` — what a path leads to; `FileFault` — why it gives no source text.
* `Reply` — what a command prints, and its exit code.
* `tokenize`, `check`, `runFile`, `prompt` — the commands; `execute` — the one that is asked for.
* `promptLine` — one line at the prompt. Its errors are shown, and the session goes on.
-/

/-! ### Requests -/

/-- What can be asked for. A command without a file has nothing to read, but `run` then starts
    the prompt. -/
inductive Command where
  | version
  | tokenize (file : Option String) (json : Bool)
  | check (file : Option String)
  | run (file : Option String)
  deriving Repr, DecidableEq

/-- The file that a command reads. -/
def Command.file? : Command → Option String
  | version => none
  | tokenize file _ => file
  | check file => file
  | run file => file

/-- A command, and whether a log is to be written. -/
structure Request where
  command : Command
  log : Bool
  deriving Repr, DecidableEq

/-- The arguments that follow a command: options and at most one file. -/
structure Operands where
  file : Option String
  json : Bool
  log : Bool
  /-- Whether only files may follow. -/
  filesOnly : Bool

namespace Request

/-- Read one argument that follows a command; `json` tells whether that option is known. -/
def operand (json : Bool) (o : Operands) (argument : String) : Option Operands :=
  if argument = "--log" && !o.filesOnly then some { o with log := true }
  else if argument = "--json" && json && !o.filesOnly then some { o with json := true }
  else if argument = "--" && !o.filesOnly then some { o with filesOnly := true }
  else if argument.startsWith "-" && argument ≠ "-" && !o.filesOnly then none
  else if o.file.isSome then none
  else some { o with file := some argument }

/-- Read the arguments that follow a command. -/
def operands (json log : Bool) (arguments : List String) : Option Operands :=
  arguments.foldlM (operand json) ⟨none, false, log, false⟩

/-- Read the arguments; options may stand before and behind the command. -/
def parseFrom (log : Bool) : List String → Option Request
  | [] => none
  | "--log" :: rest => parseFrom true rest
  | "--version" :: _ => some ⟨.version, false⟩
  | "-V" :: _ => some ⟨.version, false⟩
  | "tokenize" :: rest =>
    (operands true log rest).map fun o => ⟨.tokenize o.file o.json, o.log⟩
  | "check" :: rest => (operands false log rest).map fun o => ⟨.check o.file, o.log⟩
  | "run" :: rest => (operands false log rest).map fun o => ⟨.run o.file, o.log⟩
  | _ :: _ => none

/-- The request that the arguments make, if they make one. -/
def parse? (arguments : List String) : Option Request := parseFrom false arguments

end Request

/-! ### Files -/

/-- What a path leads to. -/
inductive Entry where
  | missing
  | directory
  | file (content : ByteArray)

/-- Why a path gives no source text. -/
inductive FileFault where
  | missing (path : String)
  | directory (path : String)
  | notText (path : String) (fault : Text.Utf8.Fault)
  deriving Repr, DecidableEq

/-- What could not be done. -/
def FileFault.context : FileFault → String
  | missing path => "Failed to open file " ++ Text.inspected path
  | directory path => "Failed to read file " ++ Text.inspected path
  | notText path _ => "File " ++ Text.inspected path ++ " is not valid UTF-8"

/-- Why it could not be done. -/
def FileFault.cause : FileFault → String
  | missing _ => "No such file or directory (os error 2)"
  | directory _ => "Is a directory (os error 21)"
  | notText _ fault => fault.message

/-- The source text that a path leads to. -/
def Entry.source (path : String) : Entry → Except FileFault String
  | missing => .error (.missing path)
  | directory => .error (.directory path)
  | file content =>
    match Text.Utf8.decode content with
    | .ok source => .ok source
    | .error fault => .error (.notText path fault)

/-! ### Replies -/

/-- What a command prints, and its exit code. -/
structure Reply where
  stdout : String
  stderr : String
  exit : Nat
  deriving Repr, DecidableEq

/-- The exit code for a source with something wrong. -/
def exitStatic : Nat := 65

/-- The exit code for a run that an error ended. -/
def exitRuntime : Nat := 70

/-- The exit code for a run in which a variable was not where its depth says. -/
def exitDesync : Nat := 101

/-- Something outside of the program went wrong. -/
def trouble (context cause : String) : String :=
  "Error: " ++ context ++ "\n\nCaused by:\n    " ++ cause ++ "\n"

/-- One line per error. -/
def errorLines (errors : List Error) : String := String.join (errors.map (·.message ++ "\n"))

/-- The notice of a command that has nothing to read. -/
def noFile : Reply := ⟨"No input filepath was provided. Exiting...\n", "", 0⟩

/-- The notice for arguments that make no request. -/
def usage : Reply := ⟨"", "Usage: rox [--log] <tokenize|check|run> [FILE]\n", 2⟩

/-- The version of the program. -/
def version : Reply := ⟨"rox 0.1.0\n", "", 0⟩

/-- List the tokens of a source; its lexical errors are shown apart. -/
def tokenize (json : Bool) (source : String) : Reply :=
  let tokens := Token.ofSource source
  let errors := Error.ofSource source
  let stdout :=
    if json then Token.jsonList tokens ++ "\n"
    else String.join (tokens.map (·.display ++ "\n"))
  ⟨stdout, errorLines errors, if errors.isEmpty then 0 else exitStatic⟩

/-- Tell what is wrong with a source. -/
def check (source : String) : Reply :=
  let report := ((Session.new Sink.unbounded).analyze source).1.report
  if report.hadError then ⟨"", errorLines report.errors.toList, exitStatic⟩ else ⟨"", "", 0⟩

/-- Run a source in a session: what is printed, the exit code, and the session. -/
def runSource (host : Host) (fuel : Nat) (source : String) (s : Session) :
    Option (Reply × Session) :=
  match s.run host fuel source with
  | none => none
  | some (verdict, s) =>
    let (output, s) := s.takeOutput
    let reply : Reply := match verdict with
      | .rejected report => ⟨output, errorLines report.errors.toList, exitStatic⟩
      | .ran (.finished _) => ⟨output, "", 0⟩
      | .ran (.failed e) => ⟨output, errorLines [e], exitRuntime⟩
      | .ran (.desync d) => ⟨output, d.message ++ "\n", exitDesync⟩
    some (reply, s)

/-- Run a source in a session of its own. -/
def runFile (host : Host) (fuel : Nat) (source : String) : Option Reply :=
  (runSource host fuel source (Session.new Sink.unbounded)).map (·.1)

/-! ### The prompt -/

/-- What stands in front of each line. -/
def promptText : String := "> "

/-- The reply to a line that is no text: the prompt ends. -/
def unreadableLine : Reply :=
  ⟨"", trouble "Failed to read line" "stream did not contain valid UTF-8", 1⟩

/-- One line at the prompt; the session goes on unless the line is no text. -/
def promptLine (host : Host) (fuel : Nat) (line : ByteArray) (s : Session) :
    Option (Reply × Option Session) :=
  match Text.Utf8.decode line with
  | .error _ => some (unreadableLine, none)
  | .ok source =>
    match runSource host fuel source s with
    | none => none
    | some (reply, s) =>
      if reply.exit = exitDesync then some (reply, none)
      else some ({ reply with exit := 0 }, some s)

/-- The bytes up to the first line end, which belongs to them, and the others. -/
def splitLine : List UInt8 → List UInt8 × List UInt8
  | [] => ([], [])
  | b :: bs =>
    if b = 10 then ([b], bs)
    else
      let (line, rest) := splitLine bs
      (b :: line, rest)

/-- The lines of the input, each with its line end; the bound on their number is the number of
    bytes. -/
def linesOf : Nat → List UInt8 → List ByteArray
  | 0, _ => []
  | _ + 1, [] => []
  | n + 1, b :: bs =>
    let (line, rest) := splitLine (b :: bs)
    ⟨line.toArray⟩ :: linesOf n rest

/-- The prompt over all lines of the input. -/
def promptLines (host : Host) (fuel : Nat) : List ByteArray → Session → Option Reply
  | [], _ => some ⟨promptText, "", 0⟩
  | line :: rest, s =>
    match promptLine host fuel line s with
    | none => none
    | some (r, none) => some { r with stdout := promptText ++ r.stdout }
    | some (r, some s) =>
      match promptLines host fuel rest s with
      | none => none
      | some more =>
        some ⟨promptText ++ r.stdout ++ more.stdout, r.stderr ++ more.stderr, more.exit⟩

/-- The prompt over the whole input. -/
def prompt (host : Host) (fuel : Nat) (input : ByteArray) : Option Reply :=
  promptLines host fuel (linesOf input.size input.toList) (Session.new Sink.unbounded)

/-! ### Commands -/

/-- Go on with the source text of a file. -/
def withSource (entry : String → Entry) (path : String) (next : String → Option Reply) :
    Option Reply :=
  match (entry path).source path with
  | .ok source => next source
  | .error fault => some ⟨"", trouble fault.context fault.cause, 1⟩

/-- Carry out a command; none if the steps do not suffice. -/
def execute (host : Host) (fuel : Nat) (entry : String → Entry) (input : ByteArray) :
    Command → Option Reply
  | .version => some version
  | .tokenize none _ => some noFile
  | .tokenize (some path) json => withSource entry path fun source => some (tokenize json source)
  | .check none => some noFile
  | .check (some path) => withSource entry path fun source => some (check source)
  | .run none => prompt host fuel input
  | .run (some path) => withSource entry path (runFile host fuel)

end Scriptlet.CommandLine
