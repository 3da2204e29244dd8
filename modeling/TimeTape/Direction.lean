/-
The direction of travel.

A program is run forward or in reverse.  Every instruction that moves or counts does so by
`delta`, so running in reverse undoes what running forward did.
-/
namespace TimeTape

/-- The way the engine runs through a program. -/
inductive Direction where
  | forward
  | reverse
  deriving DecidableEq, Repr, Inhabited

namespace Direction

/-- The name that traces and messages use. -/
def name : Direction → String
  | forward => "FORWARD"
  | reverse => "REVERSE"

/-- The opposite direction. -/
def opposite : Direction → Direction
  | forward => reverse
  | reverse => forward

/-- How far one step moves: one ahead or one back. -/
def delta : Direction → Int
  | forward => 1
  | reverse => -1

/-- The number of a direction. -/
def code : Direction → Int
  | forward => 0
  | reverse => 1

/-- The direction with a given number. -/
def ofCode? (n : Int) : Option Direction :=
  if n = 0 then some forward
  else if n = 1 then some reverse
  else none

theorem ofCode?_code (d : Direction) : ofCode? d.code = some d := by
  cases d <;> rfl

theorem opposite_opposite (d : Direction) : d.opposite.opposite = d := by
  cases d <;> rfl

/-- The name of a numbered direction, where a number that is not in use has one too. -/
def nameOfCode (n : Int) : String :=
  ((ofCode? n).map name).getD "UNKNOWN"

/-- The number of the opposite direction.  A number that is not in use flips to forward. -/
def flipCode (n : Int) : Int :=
  (((ofCode? n).map opposite).getD forward).code

/-- The movement of a numbered direction.  A number that is not in use moves ahead. -/
def deltaOfCode (n : Int) : Int :=
  ((ofCode? n).getD forward).delta

end Direction

end TimeTape
