/-
What `W` and `P` bring about, counted in steps.

A step ticks before it executes its byte.  So a redirect that a step has scheduled counts down for
the first time at the step after it, and as long as nothing else touches the schedule the steps that
follow are its ticks.  `schedule_stepMany` says so, and `Proofs.Timing` then tells which step is redirected.
Jumps, brackets and turns in between do not matter, since they leave the schedule alone.

The places are exact.  Pointers and targets are words, and a sum that left the words would show as a
negative place; but then the machine would have stopped in the very step that scheduled the redirect.
-/
import TimeTape.Proofs.Timing

namespace TimeTape.Machine

variable {code : Bytes} {m m' : Machine} {g : UInt8} {k : Nat}

/-! ### Steps that leave the schedule to its ticks -/

/-- Where the tick of the next step sends the pointer, if a redirect is due. -/
def redirect? (m : Machine) : Option Int :=
  (m.schedule.tick m.ip).2

/-- The instructions that change the schedule. -/
def scheduling : List Instruction :=
  [.wait, .persist, .erase]

/-- The next step does nothing to the schedule but tick. -/
def LeavesSchedule (m : Machine) : Prop :=
  ∀ i ∈ scheduling, m.dispatched ≠ i.glyph

instance (m : Machine) : Decidable m.LeavesSchedule :=
  inferInstanceAs (Decidable (∀ i ∈ scheduling, m.dispatched ≠ i.glyph))

theorem execute_schedule (hm : m.OnTape) {fault? : Option Fault}
    (hg : ∀ i ∈ scheduling, g ≠ i.glyph) (h : m.execute g = (m', fault?)) :
    m'.schedule = m.schedule := by
  cases effect_of_eq hm h with
  | comment _ | follow _ _ _ _ _ _ | read _ _ _ _ _ | unread _ _ _ _ _ => simp
  | erase glyph => exact absurd glyph (hg .erase (by simp [scheduling]))
  | wait glyph => exact absurd glyph (hg .wait (by simp [scheduling]))
  | persist glyph => exact absurd glyph (hg .persist (by simp [scheduling]))
  | _ => rfl

theorem Inside.step_schedule (h : Inside code m) (hrunning : m.status = .running)
    (hleaves : m.LeavesSchedule) : m.step.schedule = (m.schedule.tick m.ip).1 := by
  obtain ⟨m', fault?, ip, status, hexec, hstep⟩ := exists_execute_of_step hrunning
  calc m.step.schedule = m'.schedule := by rw [hstep]
    _ = m.poised.schedule := execute_schedule h.poised.cell hleaves hexec
    _ = (m.schedule.tick m.ip).1 := m.poised_schedule

/-- The place where the pointer stands at tick number `k` from here, if every step is one tick. -/
def standing (m : Machine) (k : Nat) : Int :=
  (stepMany (k - 1) m).ip

/-- Steps that leave the schedule alone tick it once each. -/
theorem schedule_stepMany (hreached : Reached code m)
    (hrunning : ∀ j < k, (stepMany j m).status = .running)
    (hleaves : ∀ j < k, (stepMany j m).LeavesSchedule) :
    (stepMany k m).schedule = m.schedule.ticked m.standing k := by
  induction k with
  | zero => rfl
  | succ k ih =>
      have hk := ih (fun j hj => hrunning j (Nat.lt_succ_of_lt hj))
        (fun j hj => hleaves j (Nat.lt_succ_of_lt hj))
      have hlater : Reached code (stepMany k m) :=
        stepMany_induction (fun _ h => h.step) hreached k
      have hnow := hrunning k (Nat.lt_succ_self k)
      rw [stepMany_succ, (hlater.running hnow).step_schedule hnow (hleaves k (Nat.lt_succ_self k)), hk]
      rfl

theorem redirect?_stepMany (hreached : Reached code m)
    (hrunning : ∀ j < k, (stepMany j m).status = .running)
    (hleaves : ∀ j < k, (stepMany j m).LeavesSchedule) :
    (stepMany k m).redirect? = m.schedule.calledAt m.standing (k + 1) := by
  rw [redirect?, schedule_stepMany hreached hrunning hleaves]
  rfl

theorem poised_schedule_stepMany (hreached : Reached code m)
    (hrunning : ∀ j < k, (stepMany j m).status = .running)
    (hleaves : ∀ j < k, (stepMany j m).LeavesSchedule) :
    (stepMany k m).poised.schedule = m.schedule.ticked m.standing (k + 1) := by
  rw [poised_schedule, schedule_stepMany hreached hrunning hleaves]
  rfl

/-! ### The step that schedules -/

/-- A `W` after which the machine runs on has scheduled the place that comes next. -/
theorem Inside.schedule_wait (h : Inside code m) (hrunning : m.status = .running)
    (hglyph : m.dispatched = Instruction.wait.glyph) (hstep : m.step.status = .running) :
    m.step.schedule =
      Redirect.after m.cell.toNat (m.poised.ip + m.direction.delta) false :: m.poised.schedule := by
  obtain ⟨m', hexec, hmoved, hlo, -⟩ := exists_execute_of_running hrunning hstep
  rw [hglyph, execute_wait h.poised.cell, poised_cell, poised_direction] at hexec
  obtain rfl := congrArg Prod.fst hexec
  have hplace := h.poised.pointer
  -- The target is where the pointer has moved on to, and that is a place in the program.
  have hnext : 0 ≤ wrap (m.poised.ip + m.direction.delta) := hlo
  rw [hmoved]
  show Redirect.after _ (wrap _) false :: _ = _
  rw [move_exact hplace.nonneg hplace.fits hnext]

/-- A `P` after which the machine runs on has scheduled the place it has leaped to. -/
theorem Inside.schedule_persist (h : Inside code m) (hrunning : m.status = .running)
    (hglyph : m.dispatched = Instruction.persist.glyph) (hstep : m.step.status = .running) :
    m.step.schedule =
      Redirect.after (m.cell.toNat + 1) (m.poised.ip + m.cell.toNat * m.direction.delta) true ::
        m.poised.schedule := by
  obtain ⟨m', hexec, hmoved, hlo, -⟩ := exists_execute_of_running hrunning hstep
  rw [hglyph, execute_persist h.poised.cell, poised_cell, stride_eq, poised_direction] at hexec
  obtain rfl := congrArg Prod.fst hexec
  have hplace := h.poised.pointer
  have hnext : 0 ≤ wrap (wrap (m.poised.ip + m.cell.toNat * m.direction.delta)
      + m.direction.delta) := hlo
  rw [hmoved]
  show Redirect.after _ (wrap _) true :: _ = _
  rw [(leap_exact hplace.nonneg hplace.fits m.cell hnext).1]

/-! ### How long the redirects take -/

section Cells

variable (n : UInt8) (target : Int)

theorem wait_ready : (Redirect.after n.toNat target false).Ready := by
  have hn : n.toNat < 256 := n.toNat_lt
  show -1 ≤ (n.toNat : Int) ∧ FitsWord n.toNat
  exact ⟨by omega, by omega, by omega⟩

theorem delay_wait : (Redirect.after n.toNat target false).delay = max n.toNat 1 := by
  show (max (n.toNat : Int) 1).toNat = _
  omega

theorem period_persist : (Redirect.after (n.toNat + 1) target true).period = n.toNat := by
  have hn : n.toNat < 256 := n.toNat_lt
  show wrap ((n.toNat : Int) + 1 - 1) = n.toNat
  rw [Int.add_sub_cancel]
  exact wrap_of_fits ⟨by omega, by omega⟩

theorem persist_recurring : Schedule.Recurring (Redirect.after (n.toNat + 1) target true) := by
  have hn : n.toNat < 256 := n.toNat_lt
  refine ⟨rfl, ?_, ?_, fitsWord_wrap _⟩
  · show -1 ≤ (n.toNat : Int) + 1 ∧ FitsWord (n.toNat + 1)
    exact ⟨by omega, by omega, by omega⟩
  · rw [period_persist]
    omega

theorem delay_persist : (Redirect.after (n.toNat + 1) target true).delay = n.toNat + 1 := by
  show (max ((n.toNat : Int) + 1) 1).toNat = _
  omega

theorem cycle_persist : (Redirect.after (n.toNat + 1) target true).cycle = max n.toNat 1 := by
  rw [Redirect.cycle, period_persist]
  omega

end Cells

/-! ### The steps that are redirected -/

/-- After a `W` the step whose number is the delay is redirected, and none before it. -/
theorem Reached.redirects_of_wait (h : Reached code m) (hrunning : m.status = .running)
    (hglyph : m.dispatched = Instruction.wait.glyph) (hstep : m.step.status = .running)
    (hrun : ∀ j < k, (stepMany j m.step).status = .running)
    (hleaves : ∀ j < k, (stepMany j m.step).LeavesSchedule) :
    (k + 1 < max m.cell.toNat 1 → (stepMany k m.step).redirect? = none) ∧
    (k + 1 = max m.cell.toNat 1 →
      (stepMany k m.step).redirect? = some (m.poised.ip + m.direction.delta) ∧
      (stepMany k m.step).poised.schedule = m.poised.schedule) := by
  have hschedule := (h.running hrunning).schedule_wait hrunning hglyph hstep
  have hready := wait_ready m.cell (m.poised.ip + m.direction.delta)
  have hdelay := delay_wait m.cell (m.poised.ip + m.direction.delta)
  rw [redirect?_stepMany h.step hrun hleaves, poised_schedule_stepMany h.step hrun hleaves,
    hschedule, ← hdelay]
  constructor
  · intro hlt
    exact Schedule.calledAt_of_lt hready hlt
  · intro hk
    rw [hk, Schedule.calledAt_delay hready, Schedule.ticked_delay hready]
    exact ⟨rfl, rfl⟩

/-- After a `P` the steps that are redirected come once in every cycle. -/
theorem Reached.redirects_of_persist (h : Reached code m) (hrunning : m.status = .running)
    (hglyph : m.dispatched = Instruction.persist.glyph) (hstep : m.step.status = .running)
    (hrun : ∀ j < k, (stepMany j m.step).status = .running)
    (hleaves : ∀ j < k, (stepMany j m.step).LeavesSchedule) (target : Int) :
    (stepMany k m.step).redirect? = some target ↔
      (k + 1 = m.cell.toNat + 1 ∧ target = m.poised.ip + m.cell.toNat * m.direction.delta) ∨
      ∃ j, k + 1 = m.cell.toNat + 1 + (j + 1) * max m.cell.toNat 1 ∧
        target = m.step.standing (m.cell.toNat + 1 + j * max m.cell.toNat 1) := by
  rw [redirect?_stepMany h.step hrun hleaves,
    (h.running hrunning).schedule_persist hrunning hglyph hstep,
    Schedule.calledAt_recurring_iff _ (persist_recurring _ _), delay_persist, cycle_persist]
  rfl

/--
**Redirects come when they were scheduled.**  Let a run be about to execute a `W` or a `P` at index
`i` on a cell that holds `N`, and number the steps after that one from one.

After a `W`, suppose that as many steps are taken as `N` says, or one if `N` is zero, and that none
before the last of them executes `W`, `P` or `E`.  Then the last one is redirected to the place next
to the `W` in the direction of that time, the ones before it are not, and the schedule is then the
one that the `W` found.

After a `P`, and as long as no step executes `W`, `P` or `E`, the steps that are redirected are number
`N + 1` and then every `N`-th, or every one if `N` is zero.  The first goes to the place `N` further
on from the `P`, and each later one to where the pointer stood when the one before it was redirected.
-/
theorem redirects_come_when_scheduled (code : Bytes) (options : Options) (source : Source)
    (sink : Sink) (n : Nat) :
    let m := stepMany n (start code options source sink)
    let i := m.poised.ip
    let N := m.cell.toNat
    let taking := fun k => stepMany (k - 1) m.step
    m.status = .running →
      (m.dispatched = Instruction.wait.glyph →
        (∀ k, 1 ≤ k → k ≤ max N 1 → (taking k).status = .running) →
        (∀ k, 1 ≤ k → k < max N 1 → (taking k).LeavesSchedule) →
        (∀ k, 1 ≤ k → k < max N 1 → (taking k).redirect? = none) ∧
          (taking (max N 1)).redirect? = some (i + m.direction.delta) ∧
          (taking (max N 1)).poised.schedule = m.poised.schedule) ∧
      (m.dispatched = Instruction.persist.glyph →
        ∀ k, 1 ≤ k → (∀ k', 1 ≤ k' → k' ≤ k → (taking k').status = .running) →
        (∀ k', 1 ≤ k' → k' < k → (taking k').LeavesSchedule) →
        ∀ target, (taking k).redirect? = some target ↔
          (k = N + 1 ∧ target = i + N * m.direction.delta) ∨
          ∃ j, k = N + 1 + (j + 1) * max N 1 ∧ target = (taking (N + 1 + j * max N 1)).ip) := by
  intro m i N taking hrunning
  -- Step number `k + 1` is the one that `k` steps after this one lead up to.
  have hreached : Reached code m := reached code options source sink n
  constructor
  · intro hglyph hrun hleaves
    have hstep : m.step.status = .running := hrun 1 (Nat.le_refl 1) (Nat.le_max_right N 1)
    have hsteps : ∀ k, k < max N 1 →
        (k + 1 < max N 1 → (stepMany k m.step).redirect? = none) ∧
        (k + 1 = max N 1 → (stepMany k m.step).redirect? = some (i + m.direction.delta) ∧
          (stepMany k m.step).poised.schedule = m.poised.schedule) := by
      intro k hk
      exact hreached.redirects_of_wait hrunning hglyph hstep
        (fun j hj => hrun (j + 1) (by omega) (by omega))
        (fun j hj => hleaves (j + 1) (by omega) (by omega))
    refine ⟨?_, (hsteps (max N 1 - 1) (by omega)).2 (by omega)⟩
    intro k hlo hk
    exact (hsteps (k - 1) (by omega)).1 (by omega)
  · intro hglyph k hlo hrun hleaves target
    have hstep : m.step.status = .running := hrun 1 (Nat.le_refl 1) hlo
    obtain ⟨k, rfl⟩ := Nat.exists_eq_add_of_le' hlo
    exact hreached.redirects_of_persist (k := k) hrunning hglyph hstep
      (fun j hj => hrun (j + 1) (by omega) (by omega))
      (fun j hj => hleaves (j + 1) (by omega) (by omega)) target

/--
In `++WRP>>>>>>` the turn behind the `W` is taken twice, the second time because the `W` calls the
pointer back to it while it travels in reverse.  The `P` then calls it back two times.
-/
theorem redirects_come_when_scheduled_in_reverse :
    let run := fun n => stepMany n
      (start [0x2B, 0x2B, 0x57, 0x52, 0x50, 0x3E, 0x3E, 0x3E, 0x3E, 0x3E, 0x3E] {} {} {})
    ((run 4).direction = .reverse ∧ (run 4).redirect? = some (2 + 1) ∧
      (run 4).poised.schedule = (run 2).poised.schedule) ∧
    (run 8).redirect? = some (4 + 2 * 1) ∧ (run 10).redirect? = some (run 8).ip := by
  intro run
  have hwait := redirects_come_when_scheduled
    [0x2B, 0x2B, 0x57, 0x52, 0x50, 0x3E, 0x3E, 0x3E, 0x3E, 0x3E, 0x3E] {} {} {} 2 (by decide)
  have hpersist := redirects_come_when_scheduled
    [0x2B, 0x2B, 0x57, 0x52, 0x50, 0x3E, 0x3E, 0x3E, 0x3E, 0x3E, 0x3E] {} {} {} 5 (by decide)
  have htwo : max (run 2).cell.toNat 1 = 2 := by decide
  have hsteps : ∀ k, k < 5 → (stepMany k (run 5).step).status = .running ∧
      (stepMany k (run 5).step).LeavesSchedule := by decide
  refine ⟨⟨by decide, ?_⟩, ?_, ?_⟩
  · refine (hwait.1 (by decide) ?_ ?_).2
    · intro k hlo hhi
      have hle : k ≤ 2 := Nat.le_trans hhi (Nat.le_of_eq htwo)
      obtain rfl | rfl : k = 1 ∨ k = 2 := by omega
      · decide
      · decide
    · intro k hlo hhi
      have hlt : k < 2 := Nat.lt_of_lt_of_eq hhi htwo
      obtain rfl : k = 1 := by omega
      decide
  · refine (hpersist.2 (by decide) 3 (by decide) ?_ ?_ _).mpr (Or.inl ⟨by decide, by decide⟩)
    · intro k hlo hhi
      exact (hsteps (k - 1) (by omega)).1
    · intro k hlo hhi
      exact (hsteps (k - 1) (by omega)).2
  · refine (hpersist.2 (by decide) 5 (by decide) ?_ ?_ _).mpr (Or.inr ⟨0, by decide, rfl⟩)
    · intro k hlo hhi
      exact (hsteps (k - 1) (by omega)).1
    · intro k hlo hhi
      exact (hsteps (k - 1) (by omega)).2

end TimeTape.Machine
