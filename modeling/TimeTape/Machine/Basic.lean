/-
The engine.

A machine runs one program.  It holds the program in two images, as written and mirrored,
and the one in use follows from the direction of travel.  Everything an observer can see,
the input and output included, is part of the machine, so a step is a function from
machines to machines.
-/
import TimeTape.Fault
import TimeTape.Machine.Event
import TimeTape.Profile
import TimeTape.Stream
import TimeTape.Tape

namespace TimeTape

/-- A program as it is seen when running in one direction. -/
structure Image where
  glyphs : Array UInt8
  brackets : Pairing

/-- The image of a sequence of bytes. -/
def Image.ofBytes (code : Bytes) : Image :=
  ⟨code.toArray, Pairing.ofBytes code⟩

/-- The number of bytes of an image. -/
def Image.size (i : Image) : Nat :=
  i.glyphs.size

/-- The byte at an index; outside the image every byte reads as zero, which is no instruction. -/
def Image.glyphAt (i : Image) (index : Int) : UInt8 :=
  if index < 0 then 0 else i.glyphs.getD index.toNat 0

/-- Both images of a program. -/
structure Program where
  standard : Image
  mirrored : Image

namespace Program

/-- The images of a program text. -/
def ofBytes (code : Bytes) : Program :=
  ⟨Image.ofBytes code, Image.ofBytes (mirror code)⟩

/-- The image that is used in a direction. -/
def image (p : Program) : Direction → Image
  | .forward => p.standard
  | .reverse => p.mirrored

end Program

/-- The settings of a machine. -/
structure Options where
  /-- Keep notes of what is done. -/
  verbose : Bool := false
  /-- Let a closer jump back when the cell is not zero, instead of when it is. -/
  repeatOnNonZero : Bool := false
  /-- Keep the instruction pointer where redirects put it while ticks are erased. -/
  eraseMovesPointer : Bool := false
  /-- Count executions. -/
  profile : Bool := false
  deriving DecidableEq, Repr, Inhabited

/-- Whether a machine goes on. -/
inductive Status where
  | running
  /-- The instruction pointer has left the program in the direction of travel. -/
  | halted
  | failed (f : Failure)
  deriving DecidableEq, Repr, Inhabited

/-- An engine with its program, its memory and its surroundings. -/
structure Machine where
  program : Program
  options : Options
  /-- The instruction pointer. -/
  ip : Int := 0
  /-- The memory pointer. -/
  mp : Int := 0
  direction : Direction := .forward
  schedule : Schedule := []
  tape : Tape := .blank
  source : Source := {}
  sink : Sink := {}
  /-- What has been noted, the latest first. -/
  notes : List Event := []
  profile : Option Profile := none
  /-- How many steps have been taken. -/
  steps : UInt64 := 0
  status : Status := .running

namespace Machine

/-- Notes an event if notes are kept. -/
def note (m : Machine) (e : Event) : Machine :=
  if m.options.verbose then { m with notes := e :: m.notes } else m

/-- A machine at the start of a program.  An empty program is over at once. -/
def start (code : Bytes) (options : Options) (source : Source) (sink : Sink) : Machine :=
  let program := Program.ofBytes code
  let m : Machine :=
    { program, options, source, sink
      profile := if options.profile then some {} else none
      status := if code.isEmpty then .halted else .running }
  (m.note (.paired .forward program.standard.brackets)).note
    (.paired .reverse program.mirrored.brackets)

/-- The image in use. -/
def image (m : Machine) : Image :=
  m.program.image m.direction

/-- The byte at an index of the image in use. -/
def glyphAt (m : Machine) (index : Int) : UInt8 :=
  m.image.glyphAt index

/-- The cell under the memory pointer, if there is one. -/
def cell? (m : Machine) : Option UInt8 :=
  if m.mp < 0 then none else m.tape.cells[m.mp.toNat]?

/-- The failure of a machine that has stopped with one. -/
def failure? (m : Machine) : Option Failure :=
  match m.status with
  | .failed f => some f
  | _ => none

end Machine

end TimeTape
