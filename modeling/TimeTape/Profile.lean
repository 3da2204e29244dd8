/-
Execution counts.

A profile counts how often each index of a program was executed, and how often a redirect
moved the instruction pointer.
-/
import Std.Data.TreeMap
import TimeTape.Word

namespace TimeTape

/-- How often an index was executed, and which byte was executed there last. -/
structure Tally where
  glyph : UInt8
  count : UInt64
  deriving DecidableEq, Repr, Inhabited

/-- A row of a profile. -/
structure HotSpot where
  index : Int
  glyph : UInt8
  count : UInt64
  deriving DecidableEq, Repr, Inhabited

/-- The counts of a run. -/
structure Profile where
  tallies : Std.TreeMap Int Tally := ∅
  redirects : UInt64 := 0
  total : UInt64 := 0

namespace Profile

/-- Counts the execution of `glyph` at `index`. -/
def record (p : Profile) (index : Int) (glyph : UInt8) (a : Arithmetic := .wrapping) : Profile :=
  let count := a.next ((p.tallies[index]?.map Tally.count).getD 0)
  { p with tallies := p.tallies.insert index ⟨glyph, count⟩, total := a.next p.total }

/-- Counts a redirect. -/
def redirect (p : Profile) (a : Arithmetic := .wrapping) : Profile :=
  { p with redirects := a.next p.redirects }

/-- Whether `a` comes before `b`: the higher count first, and of equal counts the lower index. -/
def busier (a b : HotSpot) : Bool :=
  if a.count = b.count then a.index ≤ b.index else b.count < a.count

/-- All rows, the busiest first. -/
def rows (p : Profile) : List HotSpot :=
  (p.tallies.toList.map fun (i, t) => ⟨i, t.glyph, t.count⟩).mergeSort busier

/-- The `n` busiest rows, or all of them for a negative `n`. -/
def busiest (p : Profile) (n : Int) : List HotSpot :=
  if n < 0 then p.rows else p.rows.take n.toNat

end Profile

end TimeTape
