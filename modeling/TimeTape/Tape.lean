/-
The memory of the engine.

A tape is a row of byte cells that starts with a single zero and grows to the right as far
as it is used.  Addresses are integers: an operation at a negative address is refused, any
other one first makes the address reachable.  Cells count modulo 256.
-/
import TimeTape.Word

namespace TimeTape

/-- A row of cells, as far as it has been used. -/
structure Tape where
  cells : Array UInt8
  deriving DecidableEq, Repr, Inhabited

namespace Tape

/-- A tape with one zero cell. -/
def blank : Tape :=
  ⟨#[0]⟩

/-- The number of cells. -/
def size (t : Tape) : Nat :=
  t.cells.size

/-- The cell at an address that may lie past the end, where all cells are zero. -/
def cell (t : Tape) (p : Nat) : UInt8 :=
  t.cells.getD p 0

/-- The tape with zero cells added until `p` is one of its cells. -/
def extend (t : Tape) (p : Nat) : Tape :=
  ⟨t.cells ++ Array.replicate (p + 1 - t.cells.size) 0⟩

/-- The tape with the address `p` made reachable; `none` for a negative address. -/
def reach? (t : Tape) (p : Int) : Option Tape :=
  if p < 0 then none else some (t.extend p.toNat)

/-- The cell at `p`, and the tape that reaches it. -/
def read? (t : Tape) (p : Int) : Option (UInt8 × Tape) :=
  (t.reach? p).map fun t => (t.cell p.toNat, t)

/-- The tape with `v` in the cell at `p`. -/
def write? (t : Tape) (p : Int) (v : UInt8) : Option Tape :=
  (t.reach? p).map fun t => ⟨t.cells.setIfInBounds p.toNat v⟩

/-- The tape with `amount` added to the cell at `p`: the lowest byte of the sum, which is a word. -/
def add? (t : Tape) (p amount : Int) (a : Arithmetic := .wrapping) : Option Tape :=
  (t.read? p).bind fun (c, t) => t.write? p (UInt8.ofInt (a.reduce (c.toNat + amount)))

/-- The cells as text, separated by commas. -/
def render (t : Tape) : String :=
  "[" ++ ", ".intercalate (t.cells.toList.map fun c => toString c.toNat) ++ "]"

end Tape

end TimeTape
