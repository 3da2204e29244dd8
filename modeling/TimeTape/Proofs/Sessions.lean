/-
Sessions with a machine and its debugger.

A session is a sequence of requests, each of which is answered before the next one is made.  The
machine may be stepped and run, and under the debugger it may be resumed until it stops; in between
the breakpoints may be changed and a single step be asked for.

A request that may run for ever carries the fuel for it.  A call that uses up its fuel has been cut
short at that point, and its answer says so, like that of a call which was called off in advance.
-/
import TimeTape.Debugger

namespace TimeTape

/-- Whether a run has been called off or cut short. -/
def Ending.cutShort : Ending → Bool
  | .canceled | .outOfFuel => true
  | _ => false

/-- Whether a run under a debugger has been called off or cut short. -/
def Return.cutShort : Return → Bool
  | .stopped _ => false
  | .ended e => e.cutShort

/-- The stop with which a run came back, if it did not end. -/
def Return.stop? : Return → Option Stop
  | .stopped s => some s
  | .ended _ => none

theorem Return.stop?_eq_some_iff {back : Return} {stop : Stop} :
    back.stop? = some stop ↔ back = .stopped stop := by
  cases back <;> simp [stop?]

namespace Debugger

/-- A change of the breakpoints. -/
inductive Edit where
  | set (index : Int)
  | remove (index : Int)
  | enable (index : Int)
  | disable (index : Int)
  | clear
  deriving DecidableEq

/-- What a machine and its debugger can be asked to do. -/
inductive Request where
  | edit (e : Edit)
  /-- Stop the next time after a single instruction. -/
  | stepInto
  /-- Take a step, without the debugger. -/
  | step
  /-- Run, without the debugger. -/
  | run (canceled : Bool) (limit : UInt64) (fuel : Nat)
  /-- Run under the debugger. -/
  | resume (canceled : Bool) (limit : UInt64) (fuel : Nat)

/-- The answer to a request. -/
inductive Response where
  /-- The breakpoints have been changed, or the reason why not. -/
  | edited (refusal : Option BreakpointError)
  | noted
  /-- A step has been taken and has left the machine in a status. -/
  | stepped (status : Status)
  | ran (ending : Ending)
  | resumed (back : Return)

/-- Changes the breakpoints. -/
def edit (d : Debugger) : Edit → Except BreakpointError Debugger
  | .set index => d.set index
  | .remove index => d.remove index
  | .enable index => d.setEnabled true index
  | .disable index => d.setEnabled false index
  | .clear => .ok d.clear

/-- Answers a request.  A change that is refused changes nothing. -/
def respond (d : Debugger) : Request → Debugger × Response
  | .edit e =>
    match d.edit e with
    | .ok d => (d, .edited none)
    | .error refusal => (d, .edited (some refusal))
  | .stepInto => (d.requestStep, .noted)
  | .step => ({ d with machine := d.machine.step }, .stepped d.machine.step.status)
  | .run canceled limit fuel =>
    let (machine, ending) := d.machine.runUnless canceled limit fuel
    ({ d with machine }, .ran ending)
  | .resume canceled limit fuel =>
    let (d, back) := d.resume canceled limit fuel
    (d, .resumed back)

/-- Answers requests one after the other. -/
def session (d : Debugger) : List Request → Debugger × List Response
  | [] => (d, [])
  | request :: rest =>
    let (d, response) := d.respond request
    let (d, responses) := d.session rest
    (d, response :: responses)

theorem session_concat (d : Debugger) (requests : List Request) (request : Request) :
    d.session (requests ++ [request])
      = (((d.session requests).1.respond request).1,
        (d.session requests).2 ++ [((d.session requests).1.respond request).2]) := by
  induction requests generalizing d with
  | nil => rfl
  | cons r rest ih => simp only [List.cons_append, session, ih]

theorem length_session (d : Debugger) (requests : List Request) :
    (d.session requests).2.length = requests.length := by
  induction requests generalizing d with
  | nil => rfl
  | cons request rest ih => rw [session, List.length_cons, List.length_cons, ih]

theorem respond_of_made {d d' : Debugger} {e : Edit} (h : d.edit e = .ok d') :
    d.respond (.edit e) = (d', .edited none) := by
  rw [respond, h]

theorem respond_of_refusal {d : Debugger} {e : Edit} {refusal : BreakpointError}
    (h : d.edit e = .error refusal) : d.respond (.edit e) = (d, .edited (some refusal)) := by
  rw [respond, h]

/-! ### Looking back on a session -/

/-- Whether what was asked for has been called off or cut short. -/
def Response.cutShort : Response → Bool
  | .ran e => e.cutShort
  | .resumed back => back.cutShort
  | _ => false

/-- How a run under the debugger came back, if this is the answer to such a request. -/
def Response.back? : Response → Option Return
  | .resumed back => some back
  | _ => none

/-- How the runs under the debugger came back, in order. -/
def returns (responses : List Response) : List Return :=
  responses.filterMap Response.back?

/-- The stops of a session, in order. -/
def stops (responses : List Response) : List Stop :=
  (returns responses).filterMap Return.stop?

/-- Whether the last run under the debugger came back with a stop. -/
def followsStop (responses : List Response) : Bool :=
  ((returns responses).getLast?.bind Return.stop?).isSome

variable (responses : List Response) (response : Response)

theorem stops_concat_other (h : response.back? = none) :
    stops (responses ++ [response]) = stops responses := by
  simp [stops, returns, h]

theorem followsStop_concat_other (h : response.back? = none) :
    followsStop (responses ++ [response]) = followsStop responses := by
  simp [followsStop, returns, h]

theorem stops_concat_resumed (back : Return) :
    stops (responses ++ [.resumed back]) = stops responses ++ back.stop?.toList := by
  rw [stops, returns, List.filterMap_append, List.filterMap_append]
  cases back <;> rfl

theorem followsStop_concat_resumed (back : Return) :
    followsStop (responses ++ [.resumed back]) = back.stop?.isSome := by
  simp [followsStop, returns, Response.back?]

end Debugger

end TimeTape
