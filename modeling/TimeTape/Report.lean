/-
Running a program and reporting on it.

After the run the tape and the profile are written to the output, if they are asked for, and
what went wrong is said in words.  With breakpoints, every stop is reported as well, and the
run goes on.
-/
import TimeTape.Config
import TimeTape.Terminal

namespace TimeTape

/-- How a run came out. -/
inductive RunResult where
  | ended (ending : Ending)
  /-- A breakpoint could not be set, and nothing was run. -/
  | badBreakpoint (error : BreakpointError)
  deriving DecidableEq, Repr

/-- The number that says how a run came out: zero for well, two for too long. -/
def RunResult.exitCode : RunResult → Nat
  | .ended .halted => 0
  | .ended (.stepLimit _) => 2
  | _ => 1

/-- What went wrong, in lines. -/
def RunResult.complaint : RunResult → String
  | .ended .halted => ""
  | .ended (.failed { fault := .paradox p, ip, mp }) =>
    s!"Paradox: {p.text}\n  {p.detail} at instruction {ip}, cell {mp}\n"
  | .ended (.stepLimit steps) =>
    s!"Stopped: {((Ending.stepLimit steps).message?).getD default}\n"
  | .ended e => s!"Error: {e.message?.getD default}\n"
  | .badBreakpoint e => s!"Error: {e.message}\n"

/-- A stop in lines. -/
def Stop.report (s : Stop) : String :=
  s!"-- {s.reason.name}\n{s.snapshot.render}\n"

/-- A row of a profile. -/
def HotSpot.line (h : HotSpot) : String :=
  s!"  {Text.padLeft 6 (toString h.index)}  {Text.quoteGlyph h.glyph}  {h.count.toNat}\n"

/-- A profile in lines, with its ten busiest rows. -/
def Profile.report (p : Profile) : List String :=
  s!"Profile: {p.total.toNat} instructions, {p.redirects.toNat} chrono redirects\n" ::
    (p.busiest 10).map HotSpot.line

/-- A run that is over. -/
structure Report where
  exitCode : Nat
  /-- The machine, with the report on it in its sink. -/
  machine : Machine
  /-- What was written beside the output. -/
  complaints : String

namespace Report

/-- What is written to the output after a run. -/
def epilogue (config : Config) (m : Machine) : List String :=
  (if config.showTape then ["\n" ++ m.tape.render ++ "\n"] else []) ++
    (m.profile.map Profile.report).getD []

/-- The report on a run. -/
def conclude (config : Config) (m : Machine) (stops : String) (result : RunResult) : Report :=
  { exitCode := result.exitCode
    machine :=
      { m with
        sink := (epilogue config m).foldl (fun s line => s.offer (Bytes.ofString line)) m.sink }
    complaints := stops ++ result.complaint }

/-- Sets breakpoints one after the other, up to the first that cannot be set. -/
def setAll (d : Debugger) (breakpoints : List Int) : Except BreakpointError Debugger :=
  breakpoints.foldlM Debugger.set d

section Terminal

variable {μ : Type → Type} [Monad μ] (terminal : Terminal μ)

/--
Runs under breakpoints until the run is over.  The stops that are still to be reported are kept,
the latest first, and given in the order of the run.
-/
@[specialize]
def watchAt (canceled : Bool) (limit : UInt64) (fuel : Nat) :
    Nat → List Stop → Debugger → μ (Debugger × List Stop × Ending)
  | 0, kept, d => return (d, kept.reverse, .outOfFuel)
  | rounds + 1, kept, d => do
    match ← d.resumeBy terminal.step canceled limit fuel with
    | (d, .ended e) => return (d, kept.reverse, e)
    | (d, .stopped s) => watchAt canceled limit fuel rounds (← terminal.report s kept) d

/-- Runs a program and reports on it. -/
@[specialize]
def runAt (canceled : Bool) (fuel : Nat) (config : Config) (code : Bytes) (source : Source)
    (sink : Sink) : μ Report := do
  let m := Machine.start code config.options source sink
  if config.breakpoints.isEmpty then
    let (m, ending) ← m.runUnlessBy terminal.step canceled config.maxSteps fuel
    return conclude config m "" (.ended ending)
  else match setAll { machine := m } config.breakpoints with
    | .error e => return conclude config m "" (.badBreakpoint e)
    | .ok d =>
      let (d, stops, ending) ← watchAt terminal canceled config.maxSteps fuel fuel [] d
      return conclude config d.machine (String.join (stops.map Stop.report)) (.ended ending)

end Terminal

/-- Runs in memory under breakpoints until the run is over; gives the stops on the way. -/
def watch (canceled : Bool) (limit : UInt64) (fuel rounds : Nat) (d : Debugger) :
    Debugger × List Stop × Ending :=
  Id.run (watchAt .memory canceled limit fuel rounds [] d)

/-- Runs a program in memory and reports on it. -/
def run (canceled : Bool) (fuel : Nat) (config : Config) (code : Bytes) (source : Source)
    (sink : Sink) : Report :=
  Id.run (runAt .memory canceled fuel config code source sink)

end Report

end TimeTape
