/-
A program text in an editor.

An editor names places in a text by line and character, both counted from zero, where a
character outside the first plane counts as two.  Both are unsigned 32-bit words, so they wrap
in a text of that size.  The engine runs the text without its line breaks and names places by
index.  A document keeps, for every byte of the program, the place of the character it belongs
to.
-/
import TimeTape.Machine.Basic

namespace TimeTape

/-- A place in a text. -/
structure Position where
  line : Nat := 0
  character : Nat := 0
  deriving DecidableEq, Repr, Inhabited

namespace Position

/-- The unsigned 32-bit number that differs from `n` by a multiple of the number of words. -/
def wrap (n : Nat) : Nat :=
  n % UInt32.size

/-- The start of the next line. -/
def nextLine (p : Position) : Position :=
  ⟨wrap (p.line + 1), 0⟩

/-- The place `n` units further on the same line. -/
def shift (p : Position) (n : Nat) : Position :=
  { p with character := wrap (p.character + n) }

/-- Whether `p` comes before `q` in the text. -/
def before (p q : Position) : Bool :=
  p.line < q.line || (p.line = q.line && p.character < q.character)

end Position

/-- The places from `start` up to, but without, `stop`. -/
structure Range where
  start : Position
  stop : Position
  deriving DecidableEq, Repr, Inhabited

/-- How many units a piece of text takes up on its line. -/
def Utf8.Piece.units (p : Utf8.Piece) : Nat :=
  if p.shown.toNat < 0x10000 then 1 else 2

/-- Whether a piece of text is the line feed. -/
def Utf8.Piece.isLineFeed (p : Utf8.Piece) : Bool :=
  p = .char '\n'

/--
Whether a piece of text is a carriage return that breaks a line by itself.  One in front of a
line feed does not, since the two are a single line break.
-/
def Utf8.Piece.isLoneReturn (p : Utf8.Piece) (rest : List Utf8.Piece) : Bool :=
  p = .char '\r' && !rest.head?.any Utf8.Piece.isLineFeed

/-- The program bytes of a text that starts at `p`, each with its place. -/
def layout (p : Position) : List Utf8.Piece → List (UInt8 × Position)
  | [] => []
  | piece :: rest =>
    if piece.isLineFeed || piece.isLoneReturn rest then layout p.nextLine rest
    else if piece = .char '\r' then layout p rest
    else piece.bytes.map (·, p) ++ layout (p.shift piece.units) rest

/--
The partner with which the bracket `glyph` at an index is on file; `none` if the byte is not a
bracket.  One that is missing from its table would read as having the partner 0.
-/
def Pairing.entry? (t : Pairing) (glyph : UInt8) (i : Nat) : Option Partner :=
  match Instruction.ofGlyph? glyph with
  | some .opener => some (t.forward.getD i (some 0))
  | some .closer => some (t.backward.getD i (some 0))
  | _ => none

/-- A text with the program it holds. -/
structure Document where
  text : Bytes
  code : Bytes
  /-- The place of every byte of the program. -/
  positions : Array Position
  program : Program

namespace Document

/-- The document with a given text. -/
def ofText (text : Bytes) : Document :=
  let placed := layout {} (Utf8.decode text)
  let code := placed.map Prod.fst
  { text, code, positions := (placed.map Prod.snd).toArray, program := Program.ofBytes code }

/--
The first index from `lo` on, before `hi`, at which `test` holds, or `hi`.  Once the test
holds it has to go on holding.  Each round halves the distance, so `hi` rounds are enough.
-/
def search (test : Nat → Bool) : Nat → Nat → Nat → Nat
  | 0, lo, _ => lo
  | rounds + 1, lo, hi =>
    if lo < hi then
      let middle := (lo + hi) / 2
      if test middle then search test rounds lo middle else search test rounds (middle + 1) hi
    else lo

/-- The place of the program byte at an index. -/
def position (d : Document) (i : Nat) : Position :=
  d.positions.getD i default

/-- The index of the program byte at a place; for a character of several bytes its first. -/
def index? (d : Document) (p : Position) : Option Nat :=
  let size := d.positions.size
  let i := search (fun i => !(d.position i).before p) size 0 size
  if d.positions[i]? = some p then some i else none

/-- The single character at an index. -/
def characterRange (d : Document) (i : Nat) : Range :=
  let start := d.position i
  { start, stop := start.shift 1 }

/--
The partner of the bracket at an index in the image that is used in a direction; `none` if
there is no bracket.
-/
def partner? (d : Document) (direction : Direction) (i : Nat) : Option Partner :=
  let image := d.program.image direction
  image.brackets.entry? (image.glyphAt i) i

end Document

end TimeTape
