/-
Pending redirects.

A redirect sends the instruction pointer to its target once its countdown has run out.
Redirects wait on a stack, and only the top one counts down: the ones below it are frozen
until it is gone.  A recurring redirect never goes away.  Each time it is due it is put
back with its period as the countdown, aimed at the place it just called the pointer away
from.
-/
import TimeTape.Word

namespace TimeTape

/-- A jump that is going to happen. -/
structure Redirect where
  /-- The number of ticks until it is due. -/
  countdown : Int
  /-- Where the instruction pointer goes. -/
  target : Int
  /-- Whether it is put back when it is due. -/
  recurring : Bool
  /-- The countdown with which it is put back. -/
  period : Int
  deriving DecidableEq, Repr, Inhabited

namespace Redirect

/-- A new redirect.  Its period is one tick shorter than its first countdown. -/
def after (countdown target : Int) (recurring : Bool) (a : Arithmetic := .wrapping) : Redirect :=
  { countdown, target, recurring, period := a.reduce (countdown - 1) }

/-- The redirect as text. -/
def render (r : Redirect) : String :=
  s!"ChronoEntry(returnIn={r.countdown}, jumpIndex={r.target}, " ++
    s!"jumpAgain={r.recurring}, origReturnIn={r.period})"

/-- A recurring redirect as it is put back when it calls the pointer away from `ip`. -/
def again (r : Redirect) (ip : Int) : Redirect :=
  { countdown := r.period, target := ip, recurring := true, period := r.period }

end Redirect

/-- A stack of redirects, the top one first. -/
abbrev Schedule := List Redirect

namespace Schedule

/--
Counts the top redirect down by one while the instruction pointer stands at `ip`.  Gives the
target of the redirect if it is due.
-/
def tick (s : Schedule) (ip : Int) (a : Arithmetic := .wrapping) : Schedule × Option Int :=
  match s with
  | [] => ([], none)
  | top :: below =>
    let left := a.reduce (top.countdown - 1)
    if 0 < left then ({ top with countdown := left } :: below, none)
    else if top.recurring then (top.again ip :: below, some top.target)
    else (below, some top.target)

end Schedule

end TimeTape
