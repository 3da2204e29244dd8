/-
The settings of a run.

They come from the command line and from the manifest.  A switch is on if either turns it on;
the program and the limit on the number of steps are those of the command line if it gives
them.
-/
import TimeTape.Machine.Basic
import TimeTape.Manifest
import TimeTape.Text.Blank
import TimeTape.Text.Number

namespace TimeTape

/-- What can be said on the command line about a run. -/
structure Flags where
  /-- The file that holds the program. -/
  file : String := ""
  options : Options := {}
  maxSteps : UInt64 := 0
  /-- A list of breakpoints, separated by commas. -/
  breaks : Bytes := []
  deriving DecidableEq, Repr, Inhabited

/-- The settings of a run. -/
structure Config where
  /-- The file that holds the program; empty if it is to be asked for. -/
  source : String := ""
  options : Options := {}
  maxSteps : UInt64 := 0
  showTape : Bool := true
  breakpoints : List Int := []
  deriving DecidableEq, Repr, Inhabited

/-! ### Lists of breakpoints -/

/-- A part of a list that is not a breakpoint. -/
structure BadBreakpoint where
  text : Bytes
  deriving DecidableEq, Repr, Inhabited

/-- The error in one line. -/
def BadBreakpoint.message (e : BadBreakpoint) : String :=
  "invalid breakpoint " ++ Text.quote e.text

namespace Breakpoints

/-- The parts of a text between its commas. -/
def fields : Bytes → List Bytes
  | [] => [[]]
  | b :: rest =>
    if b = 0x2C then [] :: fields rest
    else match fields rest with
      | first :: more => (b :: first) :: more
      | [] => [[b]]

/-- A breakpoint with white space around it. -/
def field (text : Bytes) : Except BadBreakpoint Int :=
  match Text.signed? (Text.trim text) with
  | some n => .ok n
  | none => .error ⟨text⟩

/-- Reads a list of breakpoints.  Nothing but white space is an empty list. -/
def parse (text : Bytes) : Except BadBreakpoint (List Int) :=
  if (Text.trim text).isEmpty then .ok [] else (fields text).mapM field

end Breakpoints

/-! ### Settings -/

/-- Switches that are on if either of two is. -/
def Options.or (a b : Options) : Options :=
  { verbose := a.verbose || b.verbose
    repeatOnNonZero := a.repeatOnNonZero || b.repeatOnNonZero
    eraseMovesPointer := a.eraseMovesPointer || b.eraseMovesPointer
    profile := a.profile || b.profile }

/-- The switches that a manifest sets. -/
def Manifest.options (m : Manifest) : Options :=
  { verbose := m.verbose
    repeatOnNonZero := m.repeatOnNonZero
    eraseMovesPointer := m.eraseMovesPointer
    profile := m.profile }

namespace Config

/-- Lays the manifest under the settings of the command line. -/
def withManifest (c : Config) (m : Manifest) : Config :=
  { c with
    source := if c.source = "" then m.programPath else c.source
    maxSteps := if c.maxSteps = 0 then m.maxSteps else c.maxSteps
    showTape := m.showsTape
    options := c.options.or m.options }

/-- The settings that follow from the command line and the manifest. -/
def resolve (manifest : Option Manifest) (flags : Flags) : Except BadBreakpoint Config := do
  let breakpoints ← Breakpoints.parse flags.breaks
  let config : Config :=
    { source := flags.file, options := flags.options, maxSteps := flags.maxSteps, breakpoints }
  return manifest.elim config config.withManifest

end Config

end TimeTape
