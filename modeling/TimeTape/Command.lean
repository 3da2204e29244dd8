/-
The command.

The arguments and the manifest give the settings of a run; then the program is loaded and
run.  The first thing that goes wrong ends the command.  What it needs of files and of a terminal
may be provided in any monad.
-/
import TimeTape.Command.Arguments
import TimeTape.ProgramText
import TimeTape.Project
import TimeTape.Report

namespace TimeTape

/-- Why nothing was run. -/
inductive Refusal where
  | manifest (error : ProjectError)
  | breakpoints (error : BadBreakpoint)
  /-- There is no program, although it may have been asked for. -/
  | program (error : LoadError) (shown : String)
  deriving DecidableEq, Repr

/-- The refusal in a line. -/
def Refusal.message : Refusal → String
  | .manifest e => s!"Error loading manifest: {e.message}\n"
  | .breakpoints e => s!"Error: {e.message}\n"
  | .program e _ => s!"Error: {e.message}\n"

namespace Command

/-- A flag in the list of flags.  A short one has its explanation on the same line. -/
def flagHelp (f : Flag) : String :=
  let head := "  -" ++ f.name ++ f.value.placeholder
  head ++ (if head.length ≤ 4 then "\t" else "\n    \t") ++ f.help ++ "\n"

/-- How the command is used. -/
def usage : String :=
  "Usage: chrono [options]\n\n" ++
  "Runs a Chrono program from -f, the chrono.toml entry, or a line typed at the prompt.\n\n" ++
  "Options:\n" ++ String.join (Flag.all.map flagHelp) ++
  "\nExamples:\n" ++
  "  chrono                      # Prompt for a program\n" ++
  "  chrono -f hello.cf          # Run a file\n" ++
  "  chrono -f loop.cf -nzr -max-steps 10000\n" ++
  "  chrono -f loop.cf -break 3,7 # Dump state at indices 3 and 7\n" ++
  "  chrono -lsp                 # Language server for editors\n"

/-- What is said about arguments that are not taken: what is wrong, and how the command is used. -/
def complaint (e : ArgumentError) : String :=
  (e.message?.map (· ++ "\n")).getD "" ++ usage

/-- An event as a line of the log. -/
def logLine (e : Event) : String :=
  "DEBUG [chrono.vm] " ++ e.message

/-- What the command came to. -/
inductive Outcome where
  | notTaken (error : ArgumentError)
  /-- An editor is to be served. -/
  | serve
  | refused (refusal : Refusal)
  | ran (report : Report)

namespace Outcome

/-- The number that says how the command came out. -/
def exitCode : Outcome → Nat
  | notTaken e => e.exitCode
  | serve => 0
  | refused _ => 1
  | ran report => report.exitCode

/-- What was written to the output. -/
def output : Outcome → Bytes
  | refused (.program _ shown) => Bytes.ofString shown
  | ran report => report.machine.sink.contents
  | _ => []

/-- What was written beside the output, the log aside. -/
def complaints : Outcome → String
  | notTaken e => complaint e
  | serve => ""
  | refused r => r.message
  | ran report => report.complaints

/-- What was logged. -/
def log : Outcome → List String
  | ran report => report.machine.notes.reverse.map logLine
  | _ => []

end Outcome

variable {m : Type → Type} [Monad m]

/-- The settings of the run that is asked for. -/
def configure (files : Files m) (a : Arguments) : m (Except Refusal Config) := do
  let manifest ← if a.noManifest then pure (.ok none) else Project.find files "."
  match manifest with
  | .error e => return .error (.manifest e)
  | .ok manifest => return (Config.resolve manifest a.flags).mapError .breakpoints

/-- Loads and runs a program. -/
def execute (files : Files m) (fuel : Nat) (config : Config) (input : Source) (interactive : Bool)
    (terminal : Terminal m := .memory) : m Outcome := do
  let loaded ← ProgramText.load files config.source input interactive terminal
  match loaded.code with
  | .error e => return .refused (.program e loaded.shown)
  | .ok code =>
    let sink : Sink := { written := [Bytes.ofString loaded.shown] }
    return .ran (← Report.runAt terminal false fuel config code loaded.rest sink)

/-- Carries the command out. -/
def run (files : Files m) (fuel : Nat) (arguments : List String) (input : Source)
    (interactive : Bool) (terminal : Terminal m := .memory) : m Outcome := do
  match Arguments.parse arguments with
  | .error e => return .notTaken e
  | .ok a =>
    if a.serve then return .serve
    else match ← configure files a with
      | .error r => return .refused r
      | .ok config => execute files fuel config input interactive terminal

end Command

end TimeTape
