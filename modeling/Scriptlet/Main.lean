import Scriptlet.CommandLine

namespace Scriptlet.Main

open CommandLine

/-!
# The program

Carries out what `Scriptlet.CommandLine` says: reads the file that is asked for, or lines from the
prompt, and prints.
-/

/-- More steps than any run takes. -/
def unlimited : Nat := Nat.pow 2 60

/-- What a path leads to. -/
def entry (path : String) : IO Entry := do
  try
    return .file (← IO.FS.readBinFile path)
  catch
    | .inappropriateType .. => return .directory
    | _ => return .missing

/-- A host whose clock shows the milliseconds at this moment. -/
def hostNow : IO Host := do
  let now ← IO.monoMsNow
  return Host.usual fun _ => now.toFloat

/-- Print what a command printed. -/
def deliver (r : Reply) : IO UInt32 := do
  IO.print r.stdout
  (← IO.getStdout).flush
  IO.eprint r.stderr
  return r.exit.toUInt32

/-- The bytes of the next line, with its end; nothing behind the last line. -/
partial def readLine (input : IO.FS.Stream) (line : ByteArray) : IO ByteArray := do
  let b ← input.read 1
  if b.isEmpty then return line
  else if b.data = #[10] then return line ++ b
  else readLine input (line ++ b)

/-- Read and run line after line. -/
partial def promptLoop (input : IO.FS.Stream) (s : Session) : IO UInt32 := do
  IO.print promptText
  (← IO.getStdout).flush
  let line ← readLine input ByteArray.empty
  if line.isEmpty then return 0
  match promptLine (← hostNow) unlimited line s with
  | none => return 0
  | some (r, next) =>
    let exit ← deliver r
    match next with
    | some s => promptLoop input s
    | none => return exit

/-- Carry out a request. -/
def carryOut (r : Request) : IO UInt32 := do
  if r.log then IO.FS.writeFile "app.log" ""
  match r.command with
  | .run none => promptLoop (← IO.getStdin) (Session.new Sink.unbounded)
  | command =>
    let found ← match command.file? with
      | some path => entry path
      | none => pure .missing
    match execute (← hostNow) unlimited (fun _ => found) ByteArray.empty command with
    | some reply => deliver reply
    | none => return 0

end Scriptlet.Main

/-- The command line of the program. -/
def main (arguments : List String) : IO UInt32 :=
  match Scriptlet.CommandLine.Request.parse? arguments with
  | some r => Scriptlet.Main.carryOut r
  | none => Scriptlet.Main.deliver Scriptlet.CommandLine.usage
