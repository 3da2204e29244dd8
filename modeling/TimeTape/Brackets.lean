/-
Loops: which bracket belongs to which.

`Pairing.ofBytes` pairs the brackets of a program by nesting.  A bracket without a partner
is recorded as well, since jumping through it is an error.  Running in reverse uses the
mirror image of the program, in which every bracket is turned around, with a pairing of its
own.
-/
import Std.Data.TreeMap
import TimeTape.Text.Utf8
import TimeTape.Instruction

namespace TimeTape

/-- The other bracket; any other byte stays. -/
def mirrorGlyph (b : UInt8) : UInt8 :=
  if b = Instruction.opener.glyph then Instruction.closer.glyph
  else if b = Instruction.closer.glyph then Instruction.opener.glyph
  else b

/-- The program with every bracket turned around. -/
def mirror (code : Bytes) : Bytes :=
  code.map mirrorGlyph

theorem mirrorGlyph_mirrorGlyph (b : UInt8) : mirrorGlyph (mirrorGlyph b) = b := by
  unfold mirrorGlyph
  split
  · simp_all [Instruction.glyph]
  · split <;> simp_all

/-- Mirroring twice gives the program back. -/
theorem mirror_mirror (code : Bytes) : mirror (mirror code) = code := by
  simp [mirror, Function.comp_def, mirrorGlyph_mirrorGlyph]

/--
Where a bracket's partner stands; `none` for a bracket without one.  Partners are written
with −1 for none.
-/
abbrev Partner := Option Int

namespace Partner

/-- The number that stands for a partner. -/
def code (p : Partner) : Int :=
  p.getD (-1)

/-- The partner that a number stands for. -/
def ofCode (n : Int) : Partner :=
  if n = -1 then none else some n

end Partner

/--
The partners of the brackets of one program image: `forward` is filed under the openers and
`backward` under the closers.
-/
structure Pairing where
  forward : Std.TreeMap Int Partner
  backward : Std.TreeMap Int Partner

namespace Pairing

/-- Files every partner under itself, with the bracket it was filed under as its partner. -/
def invert (entries : List (Int × Partner)) : Std.TreeMap Int Partner :=
  entries.foldl (fun table e => e.2.elim table (table.insert · (Partner.ofCode e.1))) ∅

/-- The pairing with the given openers.  A later entry for an opener replaces an earlier one. -/
def ofForward (entries : List (Int × Partner)) : Pairing :=
  let forward := Std.TreeMap.ofList entries
  { forward, backward := invert forward.toList }

/-- What is known of the brackets of a program up to some point. -/
structure Scan where
  /-- The index of the next byte. -/
  index : Nat := 0
  /-- The openers that still wait for their closer, innermost first. -/
  waiting : List Nat := []
  /-- The pairs found, latest first. -/
  pairs : List (Nat × Nat) := []
  /-- The closers that had no opener to close, latest first. -/
  strays : List Nat := []

/-- Takes the next byte of the program. -/
def Scan.next (s : Scan) (b : UInt8) : Scan :=
  let s' := { s with index := s.index + 1 }
  if b = Instruction.opener.glyph then
    { s' with waiting := s.index :: s.waiting }
  else if b = Instruction.closer.glyph then
    match s.waiting with
    | [] => { s' with strays := s.index :: s.strays }
    | o :: waiting => { s' with waiting, pairs := (o, s.index) :: s.pairs }
  else s'

/-- The scan of a whole program. -/
def scan (code : Bytes) : Scan :=
  code.foldl Scan.next {}

/-- The openers of a program with their partners. -/
def Scan.openers (s : Scan) : List (Int × Partner) :=
  s.pairs.map (fun (o, c) => (Int.ofNat o, some (Int.ofNat c))) ++
    s.waiting.map fun o => (Int.ofNat o, none)

/-- The pairing of a program's brackets by nesting. -/
def ofBytes (code : Bytes) : Pairing :=
  let s := scan code
  let table := ofForward s.openers
  { table with backward := s.strays.foldl (fun t c => t.insert (Int.ofNat c) none) table.backward }

/-- The brackets without a partner, in ascending order. -/
def unmatched (t : Pairing) : List Int :=
  let loose := fun (table : Std.TreeMap Int Partner) =>
    (table.toList.filter fun e => e.2.isNone).map Prod.fst
  (loose t.forward ++ loose t.backward).mergeSort

/-- The openers and their partners as text. -/
def render (t : Pairing) : String :=
  let entries := t.forward.toList.map fun (o, c) => s!"{o}={c.code}"
  "\x7b" ++ ", ".intercalate entries ++ "\x7d"

end Pairing

end TimeTape
