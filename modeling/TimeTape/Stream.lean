/-
Where input comes from and where output goes.

A source is the text that is still to be read, and what happens at its end: it is over, or
reading on fails.  A sink keeps what has been written and may refuse to take more.
-/
import TimeTape.Text.Lines

namespace TimeTape

/-- Input that has not been read yet. -/
structure Source where
  text : Bytes := []
  /-- The reason why reading past the text fails, if it does not simply end there. -/
  failure : Option String := none
  deriving DecidableEq, Repr, Inhabited

namespace Source

/-- The text up to and including the first line feed, and what comes after it. -/
def cutLine (text : Bytes) : Option (Bytes × Bytes) :=
  match text.span (· ≠ Text.lineFeed) with
  | (_, []) => none
  | (line, stop :: rest) => some (line ++ [stop], rest)

/--
Reads a line with its line feed, or what is left if there is none.  A source that fails at
its end does so when it has no line feed left, and what was left is lost.
-/
def readLine (s : Source) : Source × Except String Bytes :=
  match cutLine s.text with
  | some (line, rest) => ({ s with text := rest }, .ok line)
  | none =>
    ({ s with text := [] },
      match s.failure with
      | none => .ok s.text
      | some reason => .error reason)

end Source

/-- A place that takes output. -/
structure Sink where
  /-- What has been written, the latest first. -/
  written : List Bytes := []
  /-- How many more writes are accepted; `none` if there is no limit. -/
  room : Option Nat := none
  /-- The reason given for refusing a write. -/
  refusal : String := ""
  deriving DecidableEq, Repr, Inhabited

namespace Sink

/-- Everything that has been written, in order. -/
def contents (s : Sink) : Bytes :=
  s.written.reverse.flatten

/-- Writes `chunk`, or gives the reason why that is refused. -/
def write (s : Sink) (chunk : Bytes) : Except String Sink :=
  match s.room with
  | some 0 => .error s.refusal
  | some (n + 1) => .ok { s with written := chunk :: s.written, room := some n }
  | none => .ok { s with written := chunk :: s.written }

/-- Writes `chunk` if that is accepted and drops it otherwise. -/
def offer (s : Sink) (chunk : Bytes) : Sink :=
  match s.write chunk with
  | .ok s => s
  | .error _ => s

end Sink

end TimeTape
