/-
A single step is pending until it is reported.

Asking for a single step sets a flag, and reporting the step is what clears it.  A run that starts
with the flag set executes one instruction at most: it comes back before it, at a breakpoint, or
right after it.  `Single` lists the ways.  In one of them the instruction has been executed and the
step is not reported all the same, because the run is over.  If the machine has halted or failed
that is the end of it.  But at the limit of a run the machine is still running, the flag is still
set, and the next run finds it and stops after one more instruction.

So the count of steps at which a single step is reported tells how many runs have come to their
limit since it was asked for, one instruction for each of them.
-/
import TimeTape.Proofs.Debugging
import TimeTape.Proofs.Limits

namespace TimeTape.Debugger

open Machine

variable {limit : UInt64} {d d' : Debugger} {back : Return} {resuming stepDue : Bool}
  {fuel : Nat}

/-! ### One run -/

/-- How a run under the debugger comes back if a single step is pending. -/
inductive Single (limit : UInt64) (d : Debugger) : Debugger → Return → Prop
  /-- At a breakpoint, before the instruction. -/
  | before (stands : standsAt d.breaksAt d.machine = true) :
      Single limit d { d with paused := true } (.stopped ⟨.breakpoint, d.machine.snapshot⟩)
  /-- After the instruction, which was the last of the run. -/
  | ended (isOver : d.machine.step.isOver limit = true) :
      Single limit d { d with machine := d.machine.step } (.ended d.machine.step.ending)
  /-- After the instruction, to report the step. -/
  | taken (goesOn : d.machine.step.isOver limit = false) :
      Single limit d { d with machine := d.machine.step, stepping := false, paused := true }
        (.stopped ⟨.step, d.machine.step.snapshot⟩)

theorem running_of_goesOn {m : Machine} (h : m.isOver limit = false) : m.status = .running := by
  by_contra hstopped
  simp [isOver, hstopped] at h

/-- Once an instruction has been executed, a pending step is reported. -/
theorem pause?_due (hstepping : d.stepping = true) (hrunning : d.machine.status = .running) :
    d.pause? false true = some (.step, { d with stepping := false }) := by
  rw [pause?_of_running hrunning]
  simp [stopHere?, hstepping]

theorem single_of_loop (hstepping : d.stepping = true)
    (h : d.loop limit fuel resuming false = (d', back)) (hback : back.cutShort = false) :
    Single limit d d' back := by
  cases fuel with
  | zero =>
      obtain ⟨rfl, rfl⟩ := Prod.mk.inj h
      cases hback
  | succ fuel =>
      have hfirst : d.pause? resuming false = _ := pause?_first
      by_cases hstands : (!resuming && standsAt d.breaksAt d.machine) = true
      · rw [if_pos hstands] at hfirst
        rw [loop_of_stop hfirst] at h
        obtain ⟨rfl, rfl⟩ := Prod.mk.inj h
        exact .before (Bool.and_eq_true_iff.mp hstands).2
      · rw [if_neg hstands] at hfirst
        rw [loop_of_step hfirst] at h
        by_cases hover : d.machine.step.isOver limit = true
        · rw [if_pos hover] at h
          obtain ⟨rfl, rfl⟩ := Prod.mk.inj h
          exact .ended hover
        · rw [if_neg hover] at h
          rw [Bool.not_eq_true] at hover
          cases fuel with
          | zero =>
              obtain ⟨rfl, rfl⟩ := Prod.mk.inj h
              cases hback
          | succ fuel =>
              have hdue := pause?_due (d := { d with machine := d.machine.step }) hstepping
                (running_of_goesOn hover)
              rw [loop_of_stop hdue] at h
              obtain ⟨rfl, rfl⟩ := Prod.mk.inj h
              exact .taken hover

theorem single_of_resume (hstepping : d.stepping = true)
    (h : d.resume false limit fuel = (d', back)) (hback : back.cutShort = false) :
    Single limit { d with paused := false } d' back :=
  single_of_loop hstepping h hback

/-- A run with no single step pending reports none, and leaves none pending. -/
theorem loop_of_none_pending (hstepping : d.stepping = false) :
    (d.loop limit fuel resuming stepDue).1.stepping = false ∧
      ∀ stop, (d.loop limit fuel resuming stepDue).2 = .stopped stop →
        stop.reason = .breakpoint := by
  induction fuel generalizing d resuming stepDue with
  | zero => exact ⟨hstepping, by simp [loop_zero]⟩
  | succ fuel ih =>
      have hpause : d.pause? resuming stepDue = _ := pause?_eq hstepping
      by_cases hstands : (!resuming && standsAt d.breaksAt d.machine) = true
      · rw [if_pos hstands] at hpause
        rw [loop_of_stop hpause]
        refine ⟨hstepping, ?_⟩
        rintro stop ⟨⟩
        rfl
      · rw [if_neg hstands] at hpause
        rw [loop_of_step hpause]
        by_cases hover : d.machine.step.isOver limit = true
        · rw [if_pos hover]
          exact ⟨hstepping, by simp⟩
        · rw [if_neg hover]
          exact ih (d := { d with machine := d.machine.step }) hstepping

/-! ### A session -/

/-- Whether a request is made of the debugger, and not of the machine behind it. -/
def Request.ofDebugger : Request → Bool
  | .step | .run .. => false
  | _ => true

/-- Whether a run under the debugger came back at its limit. -/
def Response.atLimit : Response → Bool
  | .resumed (.ended (.stepLimit _)) => true
  | _ => false

/-- The number of runs under the debugger that came back at their limit. -/
def limitCount (responses : List Response) : Nat :=
  responses.countP Response.atLimit

variable {code : Bytes} {request : Request}

/-- While a step stays pending, only runs that come back at their limit execute an instruction. -/
theorem respond_of_pending (hreached : Reached code d.machine)
    (hours : request.ofDebugger = true) (hother : request ≠ .stepInto)
    (hdone : (d.respond request).2.cutShort = false)
    (hstill : (d.respond request).1.stepping = true) :
    d.stepping = true ∧ ((d.respond request).1.machine.status = .running →
      d.machine.status = .running ∧ (d.respond request).1.machine.steps
        = d.machine.steps + UInt64.ofNat (limitCount [(d.respond request).2])) := by
  cases request with
  | edit e =>
      obtain ⟨breakpoints, refusal?, hrespond⟩ := exists_respond_edit_eq d e
      rw [hrespond] at hstill ⊢
      exact ⟨hstill, fun hrunning => ⟨hrunning, by simp [limitCount, Response.atLimit]⟩⟩
  | stepInto => exact absurd rfl hother
  | step => cases hours
  | run canceled limit fuel => cases hours
  | resume canceled limit fuel =>
      cases canceled with
      | true => cases hdone
      | false =>
          cases hstepping : d.stepping with
          | false =>
              have hnone : (d.respond (.resume false limit fuel)).1.stepping = false :=
                (loop_of_none_pending (d := { d with paused := false }) hstepping).1
              rw [hnone] at hstill
              cases hstill
          | true =>
              refine ⟨rfl, ?_⟩
              rcases hresult : d.resume false limit fuel with ⟨d', back⟩
              have hrespond : d.respond (.resume false limit fuel) = (d', .resumed back) := by
                rw [respond, hresult]
              rw [hrespond] at hdone hstill ⊢
              cases single_of_resume hstepping hresult hdone with
              | before _ =>
                  exact fun hrunning => ⟨hrunning, by simp [limitCount, Response.atLimit]⟩
              | ended _ =>
                  intro hrunning
                  have hbefore := running_of_step hrunning
                  refine ⟨hbefore, ?_⟩
                  have hsteps := hreached.steps_step
                  rw [if_pos hbefore] at hsteps
                  have hending : d.machine.step.ending = .stepLimit d.machine.step.steps := by
                    rw [ending, hrunning]
                  rw [hending, hsteps]
                  rfl
              | taken _ => cases hstill

/--
The step that is pending after some requests was asked for after `before` and not again.  If the
machine is running it has executed one instruction since, for each run that came back at its limit.
-/
structure PendingSince (first : Debugger) (requests before between : List Request) : Prop where
  split : requests = before ++ .stepInto :: between
  latest : .stepInto ∉ between
  steps : (first.session requests).1.machine.status = .running →
    (first.session requests).1.machine.steps = (first.session before).1.machine.steps
      + UInt64.ofNat (limitCount ((first.session requests).2.drop (before.length + 1)))

namespace PendingSince

variable {first : Debugger} {requests before between : List Request}

theorem asked (first : Debugger) (requests : List Request) :
    PendingSince first (requests ++ [.stepInto]) requests [] := by
  refine ⟨rfl, List.not_mem_nil, ?_⟩
  intro _
  rw [session_concat, List.drop_of_length_le (by simp [length_session])]
  simp [respond, requestStep, limitCount]

/-- The step stays pending through a request that does not report it. -/
theorem respond (h : PendingSince first requests before between)
    (hreached : Reached code (first.session requests).1.machine)
    (hours : request.ofDebugger = true) (hother : request ≠ .stepInto)
    (hdone : ((first.session requests).1.respond request).2.cutShort = false)
    (hstill : ((first.session requests).1.respond request).1.stepping = true) :
    PendingSince first (requests ++ [request]) before (between ++ [request]) := by
  obtain ⟨-, hstep⟩ := respond_of_pending hreached hours hother hdone hstill
  refine ⟨?_, ?_, ?_⟩
  · rw [h.split, List.append_assoc, List.cons_append]
  · rw [List.mem_append, not_or, List.mem_singleton]
    exact ⟨h.latest, fun heq => hother heq.symm⟩
  · intro hrunning
    rw [session_concat] at hrunning ⊢
    obtain ⟨hbefore, hsteps⟩ := hstep hrunning
    have hle : before.length + 1 ≤ (first.session requests).2.length := by
      rw [length_session, h.split, List.length_append, List.length_cons]
      omega
    rw [List.drop_append_of_le_length hle, hsteps, h.steps hbefore, limitCount, limitCount,
      limitCount, List.countP_append, UInt64.ofNat_add, UInt64.add_assoc]

end PendingSince

/-- A single step that is pending has been asked for. -/
theorem exists_pendingSince (code : Bytes) (options : Options) (source : Source) (sink : Sink)
    (requests : List Request) (hours : ∀ request ∈ requests, request.ofDebugger = true) :
    let first : Debugger := { machine := start code options source sink }
    (∀ response ∈ (first.session requests).2, response.cutShort = false) →
    (first.session requests).1.stepping = true →
    ∃ before between, PendingSince first requests before between := by
  intro first hdone hstepping
  induction requests using List.reverseRecOn with
  | nil => cases hstepping
  | append_singleton requests request ih =>
      by_cases hasked : request = .stepInto
      · exact ⟨requests, [], hasked ▸ PendingSince.asked first requests⟩
      · rw [session_concat] at hdone hstepping
        have hreached : Reached code (first.session requests).1.machine :=
          reached_session code options source sink requests
        have hlast : request.ofDebugger = true := hours request (by simp)
        have hanswer : ((first.session requests).1.respond request).2.cutShort = false :=
          hdone _ (by simp)
        obtain ⟨hbefore, -⟩ := respond_of_pending hreached hlast hasked hanswer hstepping
        obtain ⟨before, between, h⟩ := ih (fun r hr => hours r (by simp [hr]))
          (fun response hr => hdone response (by simp [hr])) hbefore
        exact ⟨before, between ++ [request], h.respond hreached hlast hasked hanswer hstepping⟩

/-- The run that reports a single step has executed one instruction, with the step pending. -/
theorem taken_of_resume {stop : Stop} (h : (d.resume false limit fuel).2 = .stopped stop)
    (hreason : stop.reason = .step) :
    d.stepping = true ∧ d.machine.step.status = .running ∧
      stop.snapshot = d.machine.step.snapshot := by
  cases hstepping : d.stepping with
  | false =>
      have hother := (loop_of_none_pending (d := { d with paused := false }) hstepping).2 stop h
      rw [hreason] at hother
      cases hother
  | true =>
      rcases hresult : d.resume false limit fuel with ⟨d', back⟩
      rw [hresult] at h
      obtain rfl : back = .stopped stop := h
      cases single_of_resume hstepping hresult rfl with
      | before _ => cases hreason
      | taken goesOn => exact ⟨rfl, running_of_goesOn goesOn, rfl⟩

/--
**A single step outlasts the limits of runs.**  Take a machine from its start through any requests
to its debugger, none of which is cut short.

If a single step is asked for now, the next run executes one instruction at most, and reports it
unless it stops at a breakpoint before it or is over with it.  And whenever a run reports a single
step, that step has been asked for.  The count of steps is then one more than it was when it was
asked for last, and one more again for every run since that came back at its limit.  So it is the
very next instruction that is reported if and only if no run has come back at its limit since.
-/
theorem single_step_outlasts_limits (code : Bytes) (options : Options) (source : Source)
    (sink : Sink) (requests : List Request)
    (hours : ∀ request ∈ requests, request.ofDebugger = true) :
    let first : Debugger := { machine := start code options source sink }
    let s := first.session requests
    (∀ response ∈ s.2, response.cutShort = false) →
    (∀ (limit : UInt64) (fuel : Nat),
      let run := s.1.requestStep.resume false limit fuel
      run.2.cutShort = false →
        Single limit { s.1.requestStep with paused := false } run.1 run.2) ∧
    ∀ (limit : UInt64) (fuel : Nat) (stop : Stop),
      (s.1.resume false limit fuel).2 = .stopped stop → stop.reason = .step →
      ∃ before between, requests = before ++ .stepInto :: between ∧ .stepInto ∉ between ∧
        let asked := (first.session before).1.machine.steps
        let limits := limitCount (s.2.drop (before.length + 1))
        stop.snapshot.steps = asked + 1 + UInt64.ofNat limits ∧
          (limits < UInt64.size → (stop.snapshot.steps = asked + 1 ↔ limits = 0)) := by
  intro first s hdone
  refine ⟨fun limit fuel => single_of_resume rfl rfl, ?_⟩
  intro limit fuel stop hstop hreason
  obtain ⟨hstepping, hrunning, hsnapshot⟩ := taken_of_resume hstop hreason
  obtain ⟨before, between, h⟩ :=
    exists_pendingSince code options source sink requests hours hdone hstepping
  refine ⟨before, between, h.split, h.latest, ?_⟩
  intro asked limits
  have hbefore : s.1.machine.status = .running := running_of_step hrunning
  have hreached : Reached code s.1.machine := reached_session code options source sink requests
  have hsteps : stop.snapshot.steps = asked + 1 + UInt64.ofNat limits := by
    calc stop.snapshot.steps = s.1.machine.step.steps := by rw [hsnapshot]; rfl
      _ = s.1.machine.steps + 1 := by rw [hreached.steps_step, if_pos hbefore]
      _ = asked + UInt64.ofNat limits + 1 := by rw [h.steps hbefore]
      _ = asked + 1 + UInt64.ofNat limits := by
          rw [UInt64.add_assoc, UInt64.add_comm (UInt64.ofNat limits), ← UInt64.add_assoc]
  refine ⟨hsteps, ?_⟩
  intro hlt
  rw [hsteps, UInt64.add_eq_left, ← UInt64.toNat_inj, UInt64.toNat_ofNat_of_lt' hlt]
  rfl

/--
In a session with `+++++`, a single step waits at a breakpoint and through two runs that come back
at their limits.  It is reported after the third instruction.
-/
theorem single_step_outlasts_limits_twice :
    let first : Debugger := { machine := start [0x2B, 0x2B, 0x2B, 0x2B, 0x2B] {} {} {} }
    let requests : List Request :=
      [.edit (.set 0), .stepInto, .resume false 2 9, .resume false 1 9, .resume false 2 9]
    let s := first.session requests
    ((∀ request ∈ requests, request.ofDebugger = true) ∧
      ∀ response ∈ s.2, response.cutShort = false) ∧
    ∃ stop, (s.1.resume false 0 9).2 = .stopped stop ∧ stop.reason = .step ∧
      stop.snapshot.steps = 3 ∧
      ∃ before between, requests = before ++ .stepInto :: between ∧ .stepInto ∉ between ∧
        stop.snapshot.steps = (first.session before).1.machine.steps + 1
          + UInt64.ofNat (limitCount (s.2.drop (before.length + 1))) := by
  intro first requests s
  have hdone : ∀ response ∈ s.2, response.cutShort = false := by decide +kernel
  have hshown : ((s.1.resume false 0 9).2.stop?.map fun stop =>
      (stop.reason, stop.snapshot.steps)) = some (.step, 3) := by
    decide +kernel
  obtain ⟨stop, hstop, hstep⟩ := Option.map_eq_some_iff.mp hshown
  obtain ⟨hreason, hsteps⟩ := Prod.mk.inj hstep
  have hback := Return.stop?_eq_some_iff.mp hstop
  obtain ⟨-, hreport⟩ := single_step_outlasts_limits [0x2B, 0x2B, 0x2B, 0x2B, 0x2B] {} {} {}
    requests (by decide) hdone
  obtain ⟨before, between, hsplit, hlatest, hcount, -⟩ := hreport 0 9 stop hback hreason
  exact ⟨⟨by decide, hdone⟩, stop, hback, hreason, hsteps, before, between, hsplit, hlatest, hcount⟩

/--
In a session with `++++`, a single step is asked for at the start, and the next run comes back at
its limit after the first instruction.  The step stops the run after that, one instruction too late.
-/
theorem single_step_stops_later_run :
    let first : Debugger := { machine := start [0x2B, 0x2B, 0x2B, 0x2B] {} {} {} }
    let requests : List Request := [.stepInto, .resume false 1 9]
    let s := first.session requests
    (∀ response ∈ s.2, response.cutShort = false) ∧
    ¬∀ stop, (s.1.resume false 0 9).2 = .stopped stop → stop.reason = .step →
      ∃ before between, requests = before ++ .stepInto :: between ∧ .stepInto ∉ between ∧
        stop.snapshot.steps = (first.session before).1.machine.steps + 1 := by
  intro first requests s
  refine ⟨by decide +kernel, ?_⟩
  intro hspent
  have hshown : ((s.1.resume false 0 9).2.stop?.map fun stop =>
      (stop.reason, stop.snapshot.steps)) = some (.step, 2) := by
    decide +kernel
  obtain ⟨stop, hstop, hstep⟩ := Option.map_eq_some_iff.mp hshown
  obtain ⟨hreason, hsteps⟩ := Prod.mk.inj hstep
  obtain ⟨before, between, hsplit, -, hcount⟩ :=
    hspent stop (Return.stop?_eq_some_iff.mp hstop) hreason
  have hfirst : before = [] := by
    rcases before with _ | ⟨request, _ | ⟨request', rest⟩⟩
    · rfl
    · simp [requests] at hsplit
    · simp [requests] at hsplit
  rw [hsteps, hfirst] at hcount
  exact absurd hcount (by decide +kernel)

end TimeTape.Debugger
