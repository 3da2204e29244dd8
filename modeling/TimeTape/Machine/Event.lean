/-
What the engine reports while it runs.

With the verbose option set the engine notes what it does.  Notes are kept as events; their
wording is given by `Event.message`.
-/
import TimeTape.Brackets
import TimeTape.Schedule
import TimeTape.Text.Number
import TimeTape.Text.Quoted

namespace TimeTape

/-- Something the engine has done. -/
inductive Event where
  /-- The brackets of the image that is used in this direction have been paired. -/
  | paired (direction : Direction) (pairing : Pairing)
  /-- A redirect has moved the instruction pointer. -/
  | redirected (source target : Int)
  /-- A byte that is no instruction has been passed over. -/
  | skipped (glyph : UInt8)
  /-- A line of input is about to be read. -/
  | awaitingInput
  /-- A bracket has moved the instruction pointer. -/
  | jumped (source target : Int)
  /-- A byte is about to be executed. -/
  | executing (ip : Int) (glyph : UInt8) (mp : Int) (cell : UInt8) (direction : Direction)
      (next : Option Redirect)

namespace Event

/-- The wording of an event. -/
def message : Event → String
  | paired .forward pairing => "forward jump map: " ++ pairing.render
  | paired .reverse pairing => "reverse jump map: " ++ pairing.render
  | redirected source target => s!"chrono redirect from {source} to {target}"
  | skipped g => s!"skipping unknown instruction {Text.quoteGlyph g} ({g.toNat})"
  | awaitingInput => "awaiting input"
  | jumped source target => s!"jumped from {source} to {target}"
  | executing ip g mp cell direction next =>
    let top := (next.map Redirect.render).getD "none"
    s!"ip={Text.padRight 4 (toString ip)} ins={Text.quoteGlyph g} mp={mp} " ++
      s!"cell={cell.toNat} mode={direction.name} top={top}"

end Event

end TimeTape
