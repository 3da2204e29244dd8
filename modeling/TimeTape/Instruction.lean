/-
The instruction set.

A program is a sequence of bytes, and ten of them are instructions.  Every other byte is a
comment: it takes a step and does nothing.  The current cell is called N in the
descriptions.
-/
import TimeTape.Direction

namespace TimeTape

/-- The instructions, in the order in which they are listed. -/
inductive Instruction where
  /-- Turns around and switches to the other image of the program. -/
  | reverse
  /-- Counts pending redirects down without executing anything. -/
  | erase
  /-- Moves the instruction pointer. -/
  | jump
  /-- Schedules a redirect that happens once. -/
  | wait
  /-- Moves the instruction pointer and schedules a redirect that repeats. -/
  | persist
  /-- Writes the current cell, or in reverse reads a line. -/
  | io
  /-- Counts the current cell up, or in reverse down. -/
  | plus
  /-- Moves the memory pointer ahead, or in reverse back. -/
  | move
  /-- Opens a loop. -/
  | opener
  /-- Closes a loop. -/
  | closer
  deriving DecidableEq, Repr, Inhabited

namespace Instruction

/-- All instructions, in order. -/
def all : List Instruction :=
  [reverse, erase, jump, wait, persist, io, plus, move, opener, closer]

/-- The byte an instruction is written as. -/
def glyph : Instruction → UInt8
  | reverse => 0x52
  | erase => 0x45
  | jump => 0x4A
  | wait => 0x57
  | persist => 0x50
  | io => 0x2E
  | plus => 0x2B
  | move => 0x3E
  | opener => 0x7B
  | closer => 0x7D

/-- The instruction that a byte stands for, if any. -/
def ofGlyph? (b : UInt8) : Option Instruction :=
  all.find? fun i => i.glyph = b

theorem ofGlyph?_glyph (i : Instruction) : ofGlyph? i.glyph = some i := by
  cases i <;> rfl

/-- Whether an instruction opens or closes a loop. -/
def isBracket : Instruction → Bool
  | opener | closer => true
  | _ => false

/-- The name of an instruction. -/
def name : Instruction → String
  | reverse => "reverse"
  | erase => "erase"
  | jump => "jump"
  | wait => "wait"
  | persist => "persist"
  | io => "io"
  | plus => "plus"
  | move => "move"
  | opener => "open"
  | closer => "close"

/-- What an instruction does, in one sentence for each direction. -/
def effect : Instruction → Direction → String
  | reverse, .forward => "switch to REVERSE mode and the mirrored program"
  | reverse, .reverse => "switch to FORWARD mode and the standard program"
  | erase, _ => "run N chrono-stack ticks without executing them"
  | jump, .forward => "advance the instruction pointer by N"
  | jump, .reverse => "retreat the instruction pointer by N"
  | wait, .forward => "after N ticks, redirect to the instruction after this one"
  | wait, .reverse => "after N ticks, redirect to the instruction before this one"
  | persist, .forward => "jump ahead N and redirect there every N ticks after N+1"
  | persist, .reverse => "jump back N and redirect there every N ticks after N+1"
  | io, .forward => "print the current cell as a character"
  | io, .reverse => "read a line and store its first character code"
  | plus, .forward => "increment the current cell (255 wraps to 0)"
  | plus, .reverse => "decrement the current cell (0 wraps to 255)"
  | move, .forward => "advance the memory pointer"
  | move, .reverse => "retreat the memory pointer"
  | opener, .forward => "if the cell is zero, jump to the matching \x7d"
  | opener, .reverse =>
    "if the cell is zero, jump to the matching \x7d of the mirrored program"
  | closer, .forward => "if the cell is zero, jump back to the matching \x7b"
  | closer, .reverse =>
    "if the cell is zero, jump back to the matching \x7b of the mirrored program"

end Instruction

/-- Whether a byte opens or closes a loop. -/
def isBracket (b : UInt8) : Bool :=
  (Instruction.ofGlyph? b).any Instruction.isBracket

end TimeTape
