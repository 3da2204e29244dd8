/-
A snapshot of the engine between two steps.
-/
import TimeTape.Machine.Basic

namespace TimeTape

/-- What an observer of a stopped engine is shown. -/
structure Snapshot where
  ip : Int
  mp : Int
  direction : Direction
  /-- The byte at the instruction pointer. -/
  glyph : UInt8
  steps : UInt64
  schedule : Schedule
  tape : Tape
  deriving DecidableEq, Repr

/-- The snapshot of a machine. -/
def Machine.snapshot (m : Machine) : Snapshot :=
  { ip := m.ip, mp := m.mp, direction := m.direction, glyph := m.glyphAt m.ip,
    steps := m.steps, schedule := m.schedule, tape := m.tape }

/-- The snapshot as text, the top redirect first. -/
def Snapshot.render (s : Snapshot) : String :=
  let head := s!"step {s.steps.toNat}: ip={s.ip} ins={Text.quoteGlyph s.glyph} " ++
    s!"mode={s.direction.name} mp={s.mp}"
  let pending :=
    if s.schedule.isEmpty then ["  chrono: empty"]
    else s.schedule.map fun r => "  chrono: " ++ r.render
  let cells := s.tape.cells.toList.map fun c => toString c.toNat
  "\n".intercalate (head :: pending ++ ["  tape: [" ++ " ".intercalate cells ++ "]"])

end TimeTape
