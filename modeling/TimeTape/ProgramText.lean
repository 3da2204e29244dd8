/-
Loading a program.

The program is the text of a file or, if there is no file or nothing in it, a line of input.
Line breaks are dropped either way, since a program is indexed as one line.  What is left of
the input is there for the program to read.
-/
import TimeTape.Files
import TimeTape.Terminal

namespace TimeTape

/-- Why there is no program. -/
inductive LoadError where
  | unreadable (error : FileError)
  /-- The line could not be read. -/
  | unread (reason : String)
  /-- Neither the file nor the line holds anything. -/
  | empty
  deriving DecidableEq, Repr, Inhabited

/-- The error in one line. -/
def LoadError.message : LoadError → String
  | .unreadable error => "cannot read program: " ++ error.message
  | .unread reason => "cannot read program: " ++ reason
  | .empty => "no program given"

namespace ProgramText

variable {m : Type → Type} [Monad m]

/-- What is shown before a line is read from someone who types it. -/
def prompt : String := "Enter code: "

/-- The program in a file, which is empty if there is no file. -/
def ofFile (files : Files m) (path : String) : m (Except LoadError Bytes) := do
  if path = "" then return .ok []
  else match ← files.read path with
    | .error error => return .error (.unreadable error)
    | .ok text => return .ok (Text.joinLines text)

/-- The program on a line. -/
def ofLine (line : Except String Bytes) : Except LoadError Bytes :=
  match line with
  | .error reason => .error (.unread reason)
  | .ok line =>
    let code := Text.joinLines line
    if code.isEmpty then .error .empty else .ok code

/-- A program, or why there is none, with what was shown and what is left of the input. -/
structure Loaded where
  code : Except LoadError Bytes
  shown : String := ""
  rest : Source

/-- Loads a program. -/
def load (files : Files m) (path : String) (input : Source) (interactive : Bool)
    (terminal : Terminal m := .memory) : m Loaded := do
  match ← ofFile files path with
  | .error e => return { code := .error e, rest := input }
  | .ok (b :: code) => return { code := .ok (b :: code), rest := input }
  | .ok [] =>
    let { line, shown, rest } ← terminal.ask (if interactive then prompt else "") input
    return { code := ofLine line, shown, rest }

end ProgramText

end TimeTape
