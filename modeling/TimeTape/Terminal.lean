/-
Where a program runs.

What a run needs of its surroundings is a record of actions, which may be carried out in any
monad.  An action deals with what it can on the spot and gives back the rest.  In memory that is
everything: the machine holds its input and keeps its output, and the stops are kept to be
reported after the run.
-/
import TimeTape.Debugger

namespace TimeTape

/-- A line that was asked for. -/
structure Asked where
  line : Except String Bytes
  /-- What is still to be shown of the question. -/
  shown : String
  /-- The input that is left. -/
  rest : Source

/-- Where a program runs. -/
structure Terminal (m : Type → Type) where
  /-- Asks a question, and reads a line of the input for an answer. -/
  ask : String → Source → m Asked
  /-- Takes a step of a machine. -/
  step : Machine → m Machine
  /-- Reports a stop; gives the stops that are still to be reported, the latest first. -/
  report : Stop → List Stop → m (List Stop)

namespace Terminal

variable {m : Type → Type} [Monad m]

/-- A run in memory. -/
def memory : Terminal m where
  ask question input :=
    let (rest, line) := input.readLine
    return { line, shown := question, rest }
  step machine := return machine.step
  report stop kept := return stop :: kept

@[simp] theorem memory_ask (question : String) (input : Source) :
    (memory : Terminal m).ask question input
      = pure { line := input.readLine.2, shown := question, rest := input.readLine.1 } := rfl

@[simp] theorem memory_step :
    (memory : Terminal m).step = fun machine => pure machine.step := rfl

@[simp] theorem memory_report (stop : Stop) (kept : List Stop) :
    (memory : Terminal m).report stop kept = pure (stop :: kept) := rfl

end Terminal

end TimeTape
