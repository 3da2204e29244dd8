/-
The command at a console.

At a console the input arrives while a program runs, and what the program writes has to appear
at once.  So a machine is given a line just before the step that is going to read it, and what it
has written and noted is passed on after every step.

What is needed of the standard streams is a record of actions in any monad, as it is for files.
-/
import TimeTape.Command

namespace TimeTape

/-- The standard streams. -/
structure Streams (m : Type → Type) where
  /-- Reads a line of the input, with its line feed if it has one. -/
  readLine : m Bytes
  /-- Writes to the output. -/
  write : Bytes → m Unit
  /-- Writes a line of the log. -/
  log : String → m Unit
  /-- Writes beside the output. -/
  complain : String → m Unit

namespace Console

variable {m : Type → Type} [Monad m] (streams : Streams m)

/-- A machine from which all that it has written and noted has been taken. -/
def delivered (machine : Machine) : Machine :=
  { machine with sink := { machine.sink with written := [] }, notes := [] }

/-- Passes on what a machine has noted and written, and takes it from the machine. -/
@[specialize]
def deliver (machine : Machine) : m Machine := do
  (machine.notes.reverse.map Command.logLine).forM streams.log
  streams.write machine.sink.contents
  return delivered machine

/-- Gives a machine the line that it is going to read. -/
@[specialize]
def feed (machine : Machine) : m Machine := do
  if machine.awaitsLine then
    let line ← streams.readLine
    return { machine with source := { machine.source with text := machine.source.text ++ line } }
  else return machine

/-- The console as a place to run a program. -/
def terminal : Terminal m where
  ask question input := do
    streams.write (Bytes.ofString question)
    return { line := .ok (← streams.readLine), shown := "", rest := input }
  -- A machine has notes from its start, and they are to appear before anything is read.
  step machine := do deliver streams (← feed streams (← deliver streams machine)).step
  report stop kept := do
    streams.complain stop.report
    return kept

/-- Carries the command out, and passes on what is left of its outcome. -/
@[specialize]
def run (files : Files m) (fuel : Nat) (arguments : List String) (interactive : Bool) :
    m Command.Outcome := do
  let outcome ← Command.run files fuel arguments {} interactive (terminal streams)
  streams.write outcome.output
  outcome.log.forM streams.log
  streams.complain outcome.complaints
  return outcome

end Console

end TimeTape
