/-
The command on a computer.

All that is decided is decided elsewhere; here files and the standard streams are read and
written.
-/
import TimeTape.Console
import TimeTape.Server.Conversation

namespace TimeTape.Console

/-! ### Files and streams -/

/-- The problem that the number of an error stands for; its sign depends on who reports it. -/
def numbered? (code : UInt32) : Option FileProblem :=
  if code = 20 || 0 - code = 20 then some .notDirectory
  else if code = 21 || 0 - code = 21 then some .isDirectory
  else none

/-- The problem that an error of the system stands for. -/
def problem : IO.Error → FileProblem
  | .noFileOrDirectory .. => .missing
  | .inappropriateType _ code details => (numbered? code).getD (.other details)
  | .permissionDenied .. => .other "permission denied"
  | e => .other (toString e)

/-- The files of the computer. -/
def files : Files IO where
  workingDirectory := do return toString (← IO.currentDir)
  isPresent path := do
    try
      let _ ← IO.FS.realPath path
      return true
    catch _ => return false
  read path := do
    try
      return .ok (← IO.FS.readBinFile path).toList
    catch e => return .error { path, problem := problem e }

/-- Reads up to `n` bytes, fewer only at the end of the input. -/
partial def readBytes (input : IO.FS.Stream) (n : Nat) (read : Bytes) : IO Bytes := do
  if n ≤ read.length then return read
  let more ← input.read (n - read.length).toUSize
  if more.isEmpty then return read else readBytes input n (read ++ more.toList)

/-- Reads a line, with its line feed if it has one. -/
partial def readLine (input : IO.FS.Stream) (line : Array UInt8) : IO Bytes := do
  match (← input.read 1).toList with
  | [] => return line.toList
  | b :: _ =>
    if b = Text.lineFeed then return (line.push b).toList else readLine input (line.push b)

/-- Writes bytes and makes them appear. -/
def put (output : IO.FS.Stream) (text : Bytes) : IO Unit := do
  unless text.isEmpty do
    output.write text.toByteArray
    output.flush

/-- The standard streams of the computer. -/
def streams : Streams IO where
  readLine := do readLine (← IO.getStdin) #[]
  write text := do put (← IO.getStdout) text
  log := IO.eprintln
  complain := IO.eprint

/-! ### Editors -/

/-- Reads the header of a message; `none` at the end of the input. -/
partial def readHeader (input : IO.FS.Stream) (length : Nat) : IO (Option Nat) := do
  let line ← readLine input #[]
  if line.isEmpty then return none
  else if (Text.trim line).isEmpty then return some length
  else readHeader input ((Frame.length? line).getD length)

/-- Serves an editor until it ends the conversation. -/
partial def serve (input output : IO.FS.Stream) (s : Server) : IO Unit := do
  match ← readHeader input 0 with
  | none => return
  | some length =>
    let body ← readBytes input length []
    match (Json.parse? body).bind Request.ofJson? with
    | none => serve input output s
    | some r =>
      if r.method = closingMethod then return
      let (s, sent) := s.converse r
      put output (sent.flatMap Frame.render)
      serve input output s

/-! ### The command -/

/-- The rounds that are waited for the end of a program.  No computer gets through them. -/
def patience : Nat := Nat.pow 2 62

/-- Carries the command out; gives its exit code. -/
def command (arguments : List String) : IO Nat := do
  let outcome ← run streams files patience arguments (← (← IO.getStdin).isTty)
  if let .serve := outcome then serve (← IO.getStdin) (← IO.getStdout) {}
  return outcome.exitCode

end TimeTape.Console

/-- The command. -/
def main (arguments : List String) : IO UInt32 :=
  return (← TimeTape.Console.command arguments).toUInt32
