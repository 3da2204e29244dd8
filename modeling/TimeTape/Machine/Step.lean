/-
One step of the engine.

A step first counts the schedule down, which may move the instruction pointer, then
executes the byte found there, and then moves the pointer on.  The engine halts when the
pointer leaves the program in the direction of travel, and fails when it leaves it on the
other side.

An instruction gives the machine after it and the fault it ended in, if any.  The machine is
given in both cases, since what was done before the fault stays done.

Every sum, difference and product of a step is taken by the rules of an arithmetic, which is
passed on to all parts of the step that compute.
-/
import TimeTape.Machine.Basic

namespace TimeTape.Machine

/--
Counts the schedule down.  If a redirect is due the instruction pointer moves to its target
and the byte found there takes the place of `natural`.
-/
def tick (m : Machine) (natural : UInt8) (a : Arithmetic := .wrapping) : Machine × UInt8 :=
  match m.schedule.tick m.ip a with
  | (schedule, none) => ({ m with schedule }, natural)
  | (schedule, some target) =>
    let m := m.note (.redirected m.ip target)
    let profile := m.profile.map (·.redirect a)
    ({ m with schedule, profile, ip := target }, m.glyphAt target)

/-- Counts the schedule down `n` times without executing anything. -/
def skipTicks (n : Nat) (m : Machine) (a : Arithmetic := .wrapping) : Machine :=
  match n with
  | 0 => m
  | n + 1 => skipTicks n (m.tick 0 a).1 a

/-- Goes on with the current cell, which has to exist. -/
def withCell (m : Machine) (next : UInt8 → Machine → Machine × Option Fault) :
    Machine × Option Fault :=
  match m.tape.read? m.mp with
  | none => (m, some (.paradox .negativeAddress))
  | some (c, tape) => next c { m with tape }

/-- Goes on with a changed tape, provided the address was not negative. -/
def withTape (m : Machine) (tape? : Option Tape) : Machine × Option Fault :=
  match tape? with
  | none => (m, some (.paradox .negativeAddress))
  | some tape => ({ m with tape }, none)

/-- How far `n` units in the direction of travel are. -/
def stride (m : Machine) (n : UInt8) (a : Arithmetic := .wrapping) : Int :=
  a.reduce (n.toNat * m.direction.delta)

/-- The character whose number is the value of a cell, in UTF-8. -/
def encodeCell (c : UInt8) : Bytes :=
  String.utf8EncodeChar (Char.ofNat c.toNat)

/--
The value that a line of input puts into a cell: the number of its first character modulo
256, or zero if nothing but line breaks is on it.
-/
def decodeLine (line : Bytes) : UInt8 :=
  match Utf8.decode (Text.trimLineEnd line) with
  | [] => 0
  | first :: _ => first.shown.toNat.toUInt8

/-- Writes the current cell, or in reverse reads a line into it. -/
def exchange (m : Machine) : Machine × Option Fault :=
  match m.direction with
  | .forward =>
    m.withCell fun c m =>
      match m.sink.write (encodeCell c) with
      | .ok sink => ({ m with sink }, none)
      | .error reason => (m, some (.unwritten reason))
  | .reverse =>
    let m := m.note .awaitingInput
    match m.source.readLine with
    | (source, .error reason) => ({ m with source }, some (.unread reason))
    | (source, .ok line) =>
      let m := { m with source }
      m.withTape (m.tape.write? m.mp (decodeLine line))

/-- Moves to the partner that is filed under the instruction pointer. -/
def follow (m : Machine) (glyph : UInt8) (table : Std.TreeMap Int Partner) :
    Machine × Option Fault :=
  match table[m.ip]? with
  | none => (m, some (.paradox (.noBracketAt glyph m.ip)))
  | some none => (m, some (.paradox (.unmatched glyph m.ip m.direction)))
  | some (some target) => ({ m.note (.jumped m.ip target) with ip := target }, none)

/--
Executes a bracket.  An opener jumps when the cell is zero; a closer does so too, or on the
contrary when it is not zero if the options say so.
-/
def jump (m : Machine) (glyph : UInt8) : Machine × Option Fault :=
  m.withCell fun c m =>
    match Instruction.ofGlyph? glyph with
    | some .opener => if c = 0 then m.follow glyph m.image.brackets.forward else (m, none)
    | some .closer =>
      let back := if m.options.repeatOnNonZero then c ≠ 0 else c = 0
      if back then m.follow glyph m.image.brackets.backward else (m, none)
    | _ => (m, some (.paradox (.notBracket glyph)))

/-- Executes a byte, without moving on from it. -/
def execute (m : Machine) (glyph : UInt8) (a : Arithmetic := .wrapping) : Machine × Option Fault :=
  match Instruction.ofGlyph? glyph with
  | none => (m.note (.skipped glyph), none)
  | some .reverse => ({ m with direction := m.direction.opposite }, none)
  | some .erase =>
    m.withCell fun n m =>
      let erased := skipTicks n.toNat m a
      (if m.options.eraseMovesPointer then erased else { erased with ip := m.ip }, none)
  | some .jump =>
    m.withCell fun n m => ({ m with ip := a.reduce (m.ip + m.stride n a) }, none)
  | some .wait =>
    m.withCell fun n m =>
      let r := Redirect.after n.toNat (a.reduce (m.ip + m.direction.delta)) false a
      ({ m with schedule := r :: m.schedule }, none)
  | some .persist =>
    m.withCell fun n m =>
      let ip := a.reduce (m.ip + m.stride n a)
      let r := Redirect.after (a.reduce (n.toNat + 1)) ip true a
      ({ m with schedule := r :: m.schedule, ip }, none)
  | some .io => m.exchange
  | some .plus => m.withTape (m.tape.add? m.mp m.direction.delta a)
  | some .move =>
    let m := { m with mp := a.reduce (m.mp + m.direction.delta) }
    m.withTape (m.tape.reach? m.mp)
  | some .opener => m.jump glyph
  | some .closer => m.jump glyph

/-- Whether the instruction pointer is still in the program, and if not, on which side it left. -/
def staysInside (m : Machine) : Except Fault Bool :=
  match m.direction with
  | .forward =>
    if m.ip < 0 then .error (.paradox .beforeStart) else .ok (m.ip < m.image.size)
  | .reverse =>
    if m.ip < m.image.size then .ok (0 ≤ m.ip) else .error (.paradox .pastEnd)

/-- Stops with a fault at the place where the pointers stand. -/
def fail (m : Machine) (fault : Fault) : Machine :=
  { m with status := .failed { fault, ip := m.ip, mp := m.mp } }

/-- Counts the execution of a byte at the instruction pointer. -/
def count (m : Machine) (glyph : UInt8) (a : Arithmetic := .wrapping) : Machine :=
  let m := { m with steps := a.next m.steps }
  let m := m.note
    (.executing m.ip glyph m.mp (m.cell?.getD 0) m.direction m.schedule.head?)
  { m with profile := m.profile.map fun p => p.record m.ip glyph a }

/-- Moves the instruction pointer on after a byte has been executed. -/
def moveOn (m : Machine) (a : Arithmetic := .wrapping) : Machine :=
  let m := { m with ip := a.reduce (m.ip + m.direction.delta) }
  match m.staysInside with
  | .error fault => m.fail fault
  | .ok true => m
  | .ok false => { m with status := .halted }

/-- Goes on from what has become of a byte: stops with the fault it ended in, or moves on. -/
def goOn (executed : Machine × Option Fault) (a : Arithmetic := .wrapping) : Machine :=
  match executed with
  | (m, some fault) => m.fail fault
  | (m, none) => m.moveOn a

/-- One cycle of a running machine. -/
def cycle (m : Machine) (a : Arithmetic := .wrapping) : Machine :=
  let (m, glyph) := m.tick (m.glyphAt m.ip) a
  goOn ((m.count glyph a).execute glyph a) a

/-- One step.  A machine that has stopped stays as it is. -/
def step (m : Machine) (a : Arithmetic := .wrapping) : Machine :=
  match m.status with
  | .running => m.cycle a
  | _ => m

end TimeTape.Machine
