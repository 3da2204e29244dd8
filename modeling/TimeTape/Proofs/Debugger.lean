/-
One round of a debugger's loop.

Before every step the debugger looks whether there is a reason to stop.  If there is none it takes
the step, as a run does that looks at the machine afterwards.
-/
import TimeTape.Debugger
import TimeTape.Proofs.Runs

namespace TimeTape.Debugger

open Machine

variable {limit : UInt64} {d d' : Debugger} {resuming stepDue : Bool} {reason : StopReason}

/-- Whether an enabled breakpoint is set at an index. -/
def breaksAt (d : Debugger) (i : Int) : Bool :=
  d.breakpoints.getD i false

/-- Whether a running machine stands at a place of `breaks`. -/
def standsAt (breaks : Int → Bool) (m : Machine) : Bool :=
  m.status = .running && breaks m.ip

/-- Unless a single step is to be reported, only a breakpoint is a reason to stop. -/
theorem pause?_of_not_due (hdue : (stepDue && d.stepping) = false) :
    d.pause? resuming stepDue
      = if !resuming && standsAt d.breaksAt d.machine then some (.breakpoint, d) else none := by
  unfold pause? stopHere? standsAt breaksAt
  cases hs : d.machine.status with
  | running => cases resuming <;> simp [hdue]
  | halted => simp
  | failed f => simp

theorem pause?_eq (hstepping : d.stepping = false) :
    d.pause? resuming stepDue
      = if !resuming && standsAt d.breaksAt d.machine then some (.breakpoint, d) else none :=
  pause?_of_not_due (by rw [hstepping, Bool.and_false])

/-- Before its first instruction, a run stops for nothing but a breakpoint. -/
theorem pause?_first :
    d.pause? resuming false
      = if !resuming && standsAt d.breaksAt d.machine then some (.breakpoint, d) else none :=
  pause?_of_not_due rfl

theorem pause?_of_running (h : d.machine.status = .running) :
    d.pause? resuming stepDue = if resuming then none else d.stopHere? stepDue := by
  rw [pause?, h]

theorem pause?_of_stopped (h : d.machine.status ≠ .running) : d.pause? resuming stepDue = none := by
  unfold pause?
  split
  · contradiction
  · rfl

/-- A stop is for a running machine, and at most takes back what was asked for. -/
theorem pause?_eq_some (h : d.pause? resuming stepDue = some (reason, d')) :
    d.machine.status = .running ∧ resuming = false ∧
      (reason = .breakpoint → d.breaksAt d.machine.ip = true) ∧
      ∃ stepping, d' = { d with stepping } := by
  by_cases hrunning : d.machine.status = .running
  · rw [pause?_of_running hrunning] at h
    cases resuming with
    | true => simp at h
    | false =>
        refine ⟨hrunning, rfl, ?_⟩
        simp only [Bool.false_eq_true, if_false, stopHere?] at h
        split at h
        · obtain ⟨rfl, rfl⟩ := Prod.mk.inj (Option.some.inj h)
          exact ⟨by simp, false, rfl⟩
        · split at h
          · rename_i hbreaks
            obtain ⟨rfl, rfl⟩ := Prod.mk.inj (Option.some.inj h)
            exact ⟨fun _ => hbreaks, d.stepping, rfl⟩
          · simp at h
  · rw [pause?_of_stopped hrunning] at h
    simp at h

/-- A running machine on a breakpoint is passed over only by a run that goes on from a stop. -/
theorem resuming_of_pause? (h : d.pause? resuming stepDue = none)
    (hrunning : d.machine.status = .running) (hbreaks : d.breaksAt d.machine.ip = true) :
    resuming = true := by
  rw [pause?_of_running hrunning] at h
  cases resuming with
  | true => rfl
  | false =>
      rw [breaksAt] at hbreaks
      simp only [Bool.false_eq_true, if_false, stopHere?, hbreaks, if_true] at h
      split at h <;> simp at h

/-- Of a machine, a debugger looks at the status and the instruction pointer. -/
theorem pause?_congr {machine : Machine} (hstatus : machine.status = d.machine.status)
    (hip : machine.ip = d.machine.ip) :
    ({ d with machine } : Debugger).pause? resuming stepDue
      = (d.pause? resuming stepDue).map fun stop => (stop.1, { stop.2 with machine }) := by
  have hstop : ({ d with machine } : Debugger).stopHere? stepDue
      = (d.stopHere? stepDue).map fun stop => (stop.1, { stop.2 with machine }) := by
    simp only [stopHere?, hip]
    split
    · rfl
    · split <;> rfl
  simp only [pause?, hstatus]
  cases d.machine.status with
  | running =>
      cases resuming with
      | true => rfl
      | false => exact hstop
  | halted => rfl
  | failed f => rfl

section Steps

variable {μ : Type → Type} [Monad μ]

theorem loopBy_of_stop (take : Machine → μ Machine)
    (hstop : d.pause? resuming stepDue = some (reason, d')) (fuel : Nat) :
    d.loopBy take limit (fuel + 1) resuming stepDue
      = pure ({ d' with paused := true }, .stopped ⟨reason, d'.machine.snapshot⟩) := by
  rw [loopBy, hstop]

theorem loopBy_of_step (take : Machine → μ Machine) (hstop : d.pause? resuming stepDue = none)
    (fuel : Nat) :
    d.loopBy take limit (fuel + 1) resuming stepDue = (do
      let machine ← take d.machine
      if machine.isOver limit then return ({ d with machine }, .ended machine.ending)
      else loopBy take limit fuel false true { d with machine }) := by
  rw [loopBy, hstop]
  refine bind_congr fun machine => ?_
  cases hs : machine.status with
  | failed f => simp [isOver, ending, hs]
  | halted => simp [isOver, ending, hs]
  | running => simp [isOver, ending, hs]

theorem loop_zero (limit : UInt64) (resuming stepDue : Bool) (d : Debugger) :
    d.loop limit 0 resuming stepDue = (d, .ended .outOfFuel) := rfl

theorem loop_of_stop (hstop : d.pause? resuming stepDue = some (reason, d')) (fuel : Nat) :
    d.loop limit (fuel + 1) resuming stepDue
      = ({ d' with paused := true }, .stopped ⟨reason, d'.machine.snapshot⟩) := by
  rw [loop, loopBy_of_stop _ hstop, Id.run_pure]

theorem loop_of_step (hstop : d.pause? resuming stepDue = none) (fuel : Nat) :
    d.loop limit (fuel + 1) resuming stepDue
      = if d.machine.step.isOver limit
        then ({ d with machine := d.machine.step }, .ended d.machine.step.ending)
        else loop limit fuel false true { d with machine := d.machine.step } := by
  rw [loop, loopBy_of_step _ hstop]
  rfl

variable [LawfulMonad μ]

theorem loopBy_memory (limit : UInt64) (fuel : Nat) (resuming stepDue : Bool) (d : Debugger) :
    d.loopBy (fun m => (pure m.step : μ Machine)) limit fuel resuming stepDue
      = pure (d.loop limit fuel resuming stepDue) := by
  induction fuel generalizing d resuming stepDue with
  | zero => rfl
  | succ fuel ih =>
      cases hstop : d.pause? resuming stepDue with
      | some stop => rw [loopBy_of_stop _ hstop, loop_of_stop hstop]
      | none =>
          rw [loopBy_of_step _ hstop, pure_bind, loop_of_step hstop]
          split
          · rfl
          · exact ih false true { d with machine := d.machine.step }

theorem resumeBy_memory (canceled : Bool) (limit : UInt64) (fuel : Nat) (d : Debugger) :
    d.resumeBy (fun m => (pure m.step : μ Machine)) canceled limit fuel
      = pure (d.resume canceled limit fuel) := by
  cases canceled with
  | true => rfl
  | false => exact loopBy_memory limit fuel d.paused false { d with paused := false }

end Steps

/-- A run under the debugger executes instructions and sets flags, and does nothing else. -/
theorem exists_loop_eq (limit : UInt64) (fuel : Nat) (resuming stepDue : Bool) (d : Debugger) :
    ∃ k machine stepping paused, Executes d.machine k machine ∧
      (d.loop limit fuel resuming stepDue).1 = { d with machine, stepping, paused } := by
  induction fuel generalizing d resuming stepDue with
  | zero => exact ⟨0, d.machine, d.stepping, d.paused, Executes.none _, rfl⟩
  | succ fuel ih =>
      cases hstop : d.pause? resuming stepDue with
      | some stop =>
          obtain ⟨-, -, -, stepping, hd'⟩ := pause?_eq_some hstop
          rw [loop_of_stop hstop, hd']
          exact ⟨0, d.machine, stepping, true, Executes.none _, rfl⟩
      | none =>
          rw [loop_of_step hstop]
          by_cases hover : d.machine.step.isOver limit = true
          · rw [if_pos hover]
            exact ⟨_, d.machine.step, d.stepping, d.paused, executes_step d.machine, rfl⟩
          · rw [if_neg hover]
            obtain ⟨k, machine, stepping, paused, hexec, hloop⟩ :=
              ih false true { d with machine := d.machine.step }
            exact ⟨_, machine, stepping, paused, (executes_step d.machine).trans hexec, hloop⟩

theorem exists_resume_eq (canceled : Bool) (limit : UInt64) (fuel : Nat) (d : Debugger) :
    ∃ k machine stepping paused, Executes d.machine k machine ∧
      (d.resume canceled limit fuel).1 = { d with machine, stepping, paused } := by
  cases canceled with
  | true => exact ⟨0, d.machine, d.stepping, false, Executes.none _, rfl⟩
  | false => exact exists_loop_eq limit fuel d.paused false { d with paused := false }

end TimeTape.Debugger
