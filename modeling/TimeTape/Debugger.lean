/-
Running under breakpoints.

A debugger runs a machine until the instruction pointer stands on an enabled breakpoint or a
single step has been taken.  The pointer is looked at before the schedule counts down, so a
stop shows where the program arrived by itself, even if a redirect is about to move it.
-/
import Std.Data.TreeMap
import TimeTape.Machine.Run
import TimeTape.Snapshot

namespace TimeTape

/-- A machine with breakpoints. -/
structure Debugger where
  machine : Machine
  /-- The breakpoints, with whether each is enabled. -/
  breakpoints : Std.TreeMap Int Bool := ∅
  /-- Whether a single step has been asked for. -/
  stepping : Bool := false
  /-- Whether the last run stopped at a place from which it can be taken up again. -/
  paused : Bool := false

/-- Why a breakpoint could not be changed. -/
inductive BreakpointError where
  | outside (index : Int) (size : Nat)
  | absent (index : Int)
  deriving DecidableEq, Repr

/-- The error in one line. -/
def BreakpointError.message : BreakpointError → String
  | .outside index size => s!"breakpoint {index} outside program of length {size}"
  | .absent index => s!"no breakpoint at {index}"

/-- A row of the list of breakpoints. -/
structure Breakpoint where
  index : Int
  /-- The byte of the program as written. -/
  glyph : UInt8
  active : Bool
  deriving DecidableEq, Repr

/-- Why a run stopped before its end. -/
inductive StopReason where
  | breakpoint
  | step
  deriving DecidableEq, Repr

/-- The word for a reason. -/
def StopReason.name : StopReason → String
  | .breakpoint => "breakpoint"
  | .step => "step"

/-- A stop: its reason and what the machine looked like. -/
structure Stop where
  reason : StopReason
  snapshot : Snapshot

/-- How a run under breakpoints comes back: with a stop, or because it is over. -/
inductive Return where
  | stopped (stop : Stop)
  | ended (ending : Ending)

namespace Debugger

/-! ### The breakpoints -/

/-- Sets an enabled breakpoint. -/
def set (d : Debugger) (index : Int) : Except BreakpointError Debugger :=
  let size := d.machine.program.standard.size
  if 0 ≤ index ∧ index < size then
    .ok { d with breakpoints := d.breakpoints.insert index true }
  else .error (.outside index size)

/-- Removes a breakpoint. -/
def remove (d : Debugger) (index : Int) : Except BreakpointError Debugger :=
  if index ∈ d.breakpoints then .ok { d with breakpoints := d.breakpoints.erase index }
  else .error (.absent index)

/-- Enables or disables a breakpoint. -/
def setEnabled (d : Debugger) (active : Bool) (index : Int) : Except BreakpointError Debugger :=
  if index ∈ d.breakpoints then
    .ok { d with breakpoints := d.breakpoints.insert index active }
  else .error (.absent index)

/-- Removes all breakpoints. -/
def clear (d : Debugger) : Debugger :=
  { d with breakpoints := ∅ }

/-- The row for a breakpoint. -/
def row (d : Debugger) (index : Int) (active : Bool) : Breakpoint :=
  { index, glyph := d.machine.program.standard.glyphAt index, active }

/-- The rows for some entries of the table, in ascending order. -/
def rows (d : Debugger) (entries : List (Int × Bool)) : List Breakpoint :=
  (entries.map fun (index, active) => d.row index active).mergeSort fun a b => a.index ≤ b.index

/-- The breakpoints in ascending order. -/
def list (d : Debugger) : List Breakpoint :=
  d.rows d.breakpoints.toList

/-- Asks for a single step. -/
def requestStep (d : Debugger) : Debugger :=
  { d with stepping := true }

/-! ### Running -/

/--
The reason to stop here, if there is one.  A single step that was asked for is due only
after an instruction has been executed, and it is taken back when it is reported.
-/
def stopHere? (d : Debugger) (stepDue : Bool) : Option (StopReason × Debugger) :=
  if stepDue && d.stepping then some (.step, { d with stepping := false })
  else if d.breakpoints.getD d.machine.ip false then some (.breakpoint, d)
  else none

/--
The stop to be reported before the next step.  A machine that is not running is not stopped,
nor is a run that goes on from a stop.
-/
def pause? (d : Debugger) (resuming stepDue : Bool) : Option (StopReason × Debugger) :=
  match d.machine.status with
  | .running => if resuming then none else d.stopHere? stepDue
  | _ => none

section Steps

variable {μ : Type → Type} [Monad μ] (take : Machine → μ Machine)

/-- Takes steps until there is a reason to stop, the machine stops, or the limit is reached. -/
@[specialize]
def loopBy (limit : UInt64) : Nat → (resuming stepDue : Bool) → Debugger → μ (Debugger × Return)
  | 0, _, _, d => return (d, .ended .outOfFuel)
  | fuel + 1, resuming, stepDue, d =>
    match d.pause? resuming stepDue with
    | some (reason, d) =>
      return ({ d with paused := true }, .stopped { reason, snapshot := d.machine.snapshot })
    | none => do
      let d := { d with machine := ← take d.machine }
      match d.machine.status with
      | .failed f => return (d, .ended (.failed f))
      | .halted => return (d, .ended .halted)
      | .running =>
        if d.machine.atLimit limit then return (d, .ended (.stepLimit d.machine.steps))
        else loopBy limit fuel false true d

/--
Goes on with the run.  After a stop the first instruction is executed before the pointer is
looked at again.  A run that was called off in advance executes nothing.
-/
@[specialize]
def resumeBy (canceled : Bool) (limit : UInt64) (fuel : Nat) (d : Debugger) :
    μ (Debugger × Return) :=
  let resuming := d.paused
  let d := { d with paused := false }
  if canceled then return (d, .ended .canceled) else d.loopBy take limit fuel resuming false

end Steps

/-- Takes steps in memory. -/
def loop (limit : UInt64) (fuel : Nat) (resuming stepDue : Bool) (d : Debugger) :
    Debugger × Return :=
  Id.run (d.loopBy (fun m => pure m.step) limit fuel resuming stepDue)

/-- Goes on with the run in memory. -/
def resume (canceled : Bool) (limit : UInt64) (fuel : Nat) (d : Debugger) : Debugger × Return :=
  Id.run (d.resumeBy (fun m => pure m.step) canceled limit fuel)

end Debugger

end TimeTape
