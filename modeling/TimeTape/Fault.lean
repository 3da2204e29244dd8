/-
What can go wrong in a step.

A paradox is an error of the program that is run; the other faults come from its input and
output.  A failure is a fault together with the place at which the engine stopped.
-/
import TimeTape.Direction
import TimeTape.Text.Quoted

namespace TimeTape

/-- An error of the program itself. -/
inductive Paradox where
  /-- A cell before the first one was addressed. -/
  | negativeAddress
  /-- The instruction pointer went below zero while running forward. -/
  | beforeStart
  /-- The instruction pointer went past the end while running in reverse. -/
  | pastEnd
  /-- A jump was asked of a byte that is not a bracket. -/
  | notBracket (glyph : UInt8)
  /-- A jump was asked at an index where no such bracket stands. -/
  | noBracketAt (glyph : UInt8) (index : Int)
  /-- A jump was asked of a bracket without a partner. -/
  | unmatched (glyph : UInt8) (index : Int) (direction : Direction)
  deriving DecidableEq, Repr, Inhabited

namespace Paradox

/-- The message that a user is shown. -/
def text : Paradox → String
  | negativeAddress => "Attempting to find forbidden knowledge is not permitted"
  | beforeStart => "Attempting to discover The Past is not permitted"
  | pastEnd => "Attempting to discover The Future is not permitted"
  | notBracket _ => "Tear in space time!"
  | noBracketAt .. => "Tear in space time!"
  | unmatched .. => "A loop that never closes cannot be entered"

/-- The technical cause. -/
def detail : Paradox → String
  | negativeAddress => "attempted to index a negative cell"
  | beforeStart => "negative instruction pointer in forward mode"
  | pastEnd => "instruction pointer over length of code in reverse mode"
  | notBracket g => s!"invalid character {Text.quoteGlyph g} ({g.toNat}) passed to jump"
  | noBracketAt g i => s!"no jump table entry for {Text.quoteGlyph g} at {i}"
  | unmatched g i d => s!"unmatched {Text.quoteGlyph g} at {i} in {d.name} mode"

/-- The kind of paradox in words. -/
def cause : Paradox → String
  | negativeAddress => "negative memory address"
  | beforeStart => "instruction pointer negative in forward mode"
  | pastEnd => "instruction pointer past program end in reverse mode"
  | notBracket _ => "jump dispatched on a non-bracket instruction"
  | noBracketAt .. => "jump dispatched on a non-bracket instruction"
  | unmatched .. => "jump through an unmatched bracket"

end Paradox

/-- Anything that stops the engine before its program ends. -/
inductive Fault where
  | paradox (p : Paradox)
  /-- The sink refused the output. -/
  | unwritten (reason : String)
  /-- The source failed to give a line. -/
  | unread (reason : String)
  deriving DecidableEq, Repr, Inhabited

/-- A fault and where the instruction and memory pointers stood. -/
structure Failure where
  fault : Fault
  ip : Int := 0
  mp : Int := 0
  deriving DecidableEq, Repr, Inhabited

/-- The failure in one line. -/
def Failure.message (f : Failure) : String :=
  match f.fault with
  | .paradox p => s!"{p.text} ({p.detail} at ip={f.ip} mp={f.mp})"
  | .unwritten reason => "write output: " ++ reason
  | .unread reason => "read input: " ++ reason

end TimeTape
