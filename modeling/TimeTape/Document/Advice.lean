/-
What an editor is told about a document.

Diagnostics point out brackets that cannot be jumped through, hovering explains the
instruction at a place, the definition of a bracket is its partner, and completion offers
the instructions.
-/
import TimeTape.Document

namespace TimeTape

/-- How serious a diagnostic is. -/
inductive Severity where
  | warning
  | information
  deriving DecidableEq, Repr

/-- A remark on a part of a document. -/
structure Diagnostic where
  range : Range
  severity : Severity
  message : String
  deriving DecidableEq, Repr

/-- An explanation of a part of a document, in Markdown. -/
structure Hover where
  range : Range
  text : String
  deriving DecidableEq, Repr

/-- A part of a document. -/
structure Location where
  uri : String
  range : Range
  deriving DecidableEq, Repr

/-- A text that an editor may insert. -/
structure Completion where
  label : String
  detail : String
  documentation : String
  deriving DecidableEq, Repr

/-- The character that an instruction is written as. -/
def Instruction.label (i : Instruction) : String :=
  String.singleton (Char.ofNat i.glyph.toNat)

/-- The instructions as completions. -/
def completions : List Completion :=
  Instruction.all.map fun i =>
    { label := i.label, detail := i.name
      documentation :=
        s!"forward: {i.effect .forward}\nreverse: {i.effect .reverse}" }

/-- The explanation of an instruction at an index, with what is to be said about its partners. -/
def Instruction.explanation (instruction : Instruction) (i : Nat) (partners : String) : String :=
  s!"**{instruction.label}** ({instruction.name}), program index {i}\n\n" ++
    s!"- forward: {instruction.effect .forward}\n" ++
    s!"- reverse: {instruction.effect .reverse}\n" ++ partners

/-- The sentence about a partner in a direction, given its index and its place. -/
def Direction.partnerText (direction : Direction) : Option (Int × Position) → String
  | none => s!"{direction.name}: no partner\n\n"
  | some (p, place) =>
    s!"{direction.name}: matches index {p} " ++
      s!"(line {Position.wrap (place.line + 1)}, " ++
      s!"column {Position.wrap (place.character + 1)})\n\n"

namespace Document

/-- The byte at an index of the program as written. -/
def glyph (d : Document) (i : Nat) : UInt8 :=
  d.program.standard.glyphAt i

/-- A warning for a bracket without a partner in the program as written. -/
def looseBracket (d : Document) (i : Nat) : Diagnostic :=
  { range := d.characterRange i, severity := .warning
    message :=
      s!"unmatched {Text.quoteGlyph (d.glyph i)}: jumping here is fatal in forward mode" }

/--
A remark that some brackets have no partner in the mirrored program, at the first of them.
It is made only if the program can turn around at all.
-/
def mirrorRemark? (d : Document) : Option Diagnostic :=
  match d.program.mirrored.brackets.unmatched with
  | [] => none
  | first :: more =>
    if d.code.contains Instruction.reverse.glyph then
      let all := d.code.countP isBracket
      some
        { range := d.characterRange first.toNat, severity := .information
          message :=
            s!"{more.length + 1} of {all} brackets have no partner in the mirrored program: " ++
              "jumping through them is fatal in reverse mode" }
    else none

/-- All remarks on a document. -/
def diagnostics (d : Document) : List Diagnostic :=
  d.program.standard.brackets.unmatched.map (fun i => d.looseBracket i.toNat) ++
    d.mirrorRemark?.toList

/-- The sentence about a bracket's partner in a direction. -/
def partnerLine (d : Document) (i : Nat) (direction : Direction) : String :=
  direction.partnerText ((d.partner? direction i).join.map fun p => (p, d.position p.toNat))

/-- The explanation of the byte at an index, if it is an instruction. -/
def hover? (d : Document) (i : Nat) : Option Hover :=
  (Instruction.ofGlyph? (d.glyph i)).map fun instruction =>
    let partners :=
      if instruction.isBracket then
        "\n" ++ d.partnerLine i .forward ++ d.partnerLine i .reverse
      else ""
    { range := d.characterRange i, text := instruction.explanation i partners }

/-- The place of the partner of the bracket at an index, in the program as written. -/
def definition? (d : Document) (uri : String) (i : Nat) : Option Location :=
  (d.partner? .forward i).join.map fun p => { uri, range := d.characterRange p.toNat }

end Document

end TimeTape
