/-
Running a program.

A run takes steps until the machine stops or a limit on the number of steps is reached.  A
program need not end, so the recursion is on a separate bound, the fuel; a run that uses it
up says so and can be taken up again from the machine it gives.

How a step is taken is left open, since what a machine reads and writes may have to be brought
and taken away around it.  That may be done in any monad; in memory there is nothing to do.
-/
import TimeTape.Machine.Step

namespace TimeTape

/-- Why a run is over. -/
inductive Ending where
  | halted
  | failed (f : Failure)
  /-- The limit on the number of steps was reached after so many steps. -/
  | stepLimit (steps : UInt64)
  /-- The run was called off before it began. -/
  | canceled
  /-- The fuel was used up. -/
  | outOfFuel
  deriving DecidableEq, Repr, Inhabited

/-- The error that an ending amounts to; `none` for a clean halt. -/
def Ending.message? : Ending → Option String
  | .halted => none
  | .failed f => some f.message
  | .stepLimit steps => some s!"step limit exceeded: {steps.toNat} steps"
  | .canceled => some "context canceled"
  | .outOfFuel => some "out of fuel"

namespace Machine

/-- The machine after `n` steps. -/
def stepMany : Nat → Machine → Machine
  | 0, m => m
  | n + 1, m => stepMany n m.step

/-- Whether a machine that has taken a step has used up a limit; zero means no limit. -/
def atLimit (limit : UInt64) (m : Machine) : Bool :=
  0 < limit && limit ≤ m.steps

section Steps

variable {μ : Type → Type} [Monad μ] (take : Machine → μ Machine)

/-- Takes steps until the machine stops, the limit is reached, or the fuel is used up. -/
@[specialize]
def runBy (limit : UInt64) : Nat → Machine → μ (Machine × Ending)
  | 0, m => return (m, .outOfFuel)
  | fuel + 1, m => do
    let m ← take m
    match m.status with
    | .failed f => return (m, .failed f)
    | .halted => return (m, .halted)
    | .running => if m.atLimit limit then return (m, .stepLimit m.steps) else runBy limit fuel m

/-- A run that may have been called off in advance. -/
@[specialize]
def runUnlessBy (canceled : Bool) (limit : UInt64) (fuel : Nat) (m : Machine) :
    μ (Machine × Ending) :=
  if canceled then return (m, .canceled) else m.runBy take limit fuel

end Steps

/-- A run in memory. -/
def run (limit : UInt64) (fuel : Nat) (m : Machine) : Machine × Ending :=
  Id.run (m.runBy (fun m => pure m.step) limit fuel)

/-- A run in memory that may have been called off in advance. -/
def runUnless (canceled : Bool) (limit : UInt64) (fuel : Nat) (m : Machine) : Machine × Ending :=
  Id.run (m.runUnlessBy (fun m => pure m.step) canceled limit fuel)

/--
Whether the next step is going to read a line that the source does not hold.  A machine whose
input arrives while it runs is given the line before that step.
-/
def awaitsLine (m : Machine) : Bool :=
  m.status = .running && m.direction = .reverse &&
    (m.tick (m.glyphAt m.ip)).2 = Instruction.io.glyph && (Source.cutLine m.source.text).isNone

end Machine

end TimeTape
