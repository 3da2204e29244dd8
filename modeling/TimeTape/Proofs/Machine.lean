/-
What a step looks like from outside.

A step counts the schedule down, executes one byte and moves on.  `poised` is the machine
between the first two, and `dispatched` the byte that is executed.  Most of this file says
what the parts of a step leave alone: notes and counts are kept on the side, ticks touch
nothing but the instruction pointer and the schedule, and no part of a step ever changes the
program or the options.

A machine that is `OnTape` has a cell under its memory pointer.  Then no instruction but a
move can fail for want of a cell, and `withCell` just hands the cell on.
-/
import TimeTape.Machine.Run
import TimeTape.Proofs.Tape

namespace TimeTape

namespace Machine

variable {m : Machine}

/-! ### Notes and counts -/

section Records

variable (m : Machine) (e : Event) (g : UInt8)

@[simp] theorem note_program : (m.note e).program = m.program := by unfold note; split <;> rfl

@[simp] theorem note_options : (m.note e).options = m.options := by unfold note; split <;> rfl

@[simp] theorem note_ip : (m.note e).ip = m.ip := by unfold note; split <;> rfl

@[simp] theorem note_mp : (m.note e).mp = m.mp := by unfold note; split <;> rfl

@[simp] theorem note_direction : (m.note e).direction = m.direction := by
  unfold note; split <;> rfl

@[simp] theorem note_schedule : (m.note e).schedule = m.schedule := by unfold note; split <;> rfl

@[simp] theorem note_tape : (m.note e).tape = m.tape := by unfold note; split <;> rfl

@[simp] theorem note_source : (m.note e).source = m.source := by unfold note; split <;> rfl

@[simp] theorem note_sink : (m.note e).sink = m.sink := by unfold note; split <;> rfl

@[simp] theorem note_status : (m.note e).status = m.status := by unfold note; split <;> rfl

@[simp] theorem note_steps : (m.note e).steps = m.steps := by unfold note; split <;> rfl

@[simp] theorem note_profile : (m.note e).profile = m.profile := by unfold note; split <;> rfl

@[simp] theorem note_image : (m.note e).image = m.image := by simp [image]

/-- A note is written down or not, and that is all. -/
theorem exists_note : ∃ notes, m.note e = { m with notes } := by
  unfold note
  split
  · exact ⟨e :: m.notes, rfl⟩
  · exact ⟨m.notes, rfl⟩

/-- Counting an execution is noted, and changes the counts. -/
theorem count_eq (a : Arithmetic) :
    m.count g a =
      { m.note (.executing m.ip g m.mp (m.cell?.getD 0) m.direction m.schedule.head?) with
        steps := a.next m.steps
        profile := m.profile.map fun p => p.record m.ip g a } := by
  by_cases hverbose : m.options.verbose = true
  · simp [count, note, hverbose, cell?]
  · simp [count, note, hverbose]

@[simp] theorem count_program : (m.count g).program = m.program := by simp [count]

@[simp] theorem count_options : (m.count g).options = m.options := by simp [count]

@[simp] theorem count_ip : (m.count g).ip = m.ip := by simp [count]

@[simp] theorem count_mp : (m.count g).mp = m.mp := by simp [count]

@[simp] theorem count_direction : (m.count g).direction = m.direction := by simp [count]

@[simp] theorem count_schedule : (m.count g).schedule = m.schedule := by simp [count]

@[simp] theorem count_tape : (m.count g).tape = m.tape := by simp [count]

@[simp] theorem count_source : (m.count g).source = m.source := by simp [count]

@[simp] theorem count_sink : (m.count g).sink = m.sink := by simp [count]

@[simp] theorem count_status : (m.count g).status = m.status := by simp [count]

@[simp] theorem count_steps : (m.count g).steps = m.steps + 1 := by simp [count]

end Records

/-! ### Ticks -/

section Ticks

variable (m : Machine) (g : UInt8) (n : Nat)

theorem tick_ip : (m.tick g).1.ip = (m.schedule.tick m.ip).2.getD m.ip := by
  unfold tick; split <;> simp_all

theorem tick_schedule : (m.tick g).1.schedule = (m.schedule.tick m.ip).1 := by
  unfold tick; split <;> simp_all

@[simp] theorem tick_program : (m.tick g).1.program = m.program := by
  unfold tick; split <;> simp

@[simp] theorem tick_options : (m.tick g).1.options = m.options := by
  unfold tick; split <;> simp

@[simp] theorem tick_mp : (m.tick g).1.mp = m.mp := by unfold tick; split <;> simp

@[simp] theorem tick_direction : (m.tick g).1.direction = m.direction := by
  unfold tick; split <;> simp

@[simp] theorem tick_tape : (m.tick g).1.tape = m.tape := by unfold tick; split <;> simp

@[simp] theorem tick_source : (m.tick g).1.source = m.source := by unfold tick; split <;> simp

@[simp] theorem tick_sink : (m.tick g).1.sink = m.sink := by unfold tick; split <;> simp

@[simp] theorem tick_status : (m.tick g).1.status = m.status := by unfold tick; split <;> simp

@[simp] theorem tick_steps : (m.tick g).1.steps = m.steps := by unfold tick; split <;> simp

/-- The byte that a tick gives is the one the pointer then stands at. -/
theorem tick_glyph : (m.tick (m.glyphAt m.ip)).2 = m.glyphAt (m.tick (m.glyphAt m.ip)).1.ip := by
  rw [tick_ip]
  unfold tick
  split <;> simp_all [glyphAt]

theorem skipTicks_succ {a : Arithmetic} :
    skipTicks (n + 1) m a = ((skipTicks n m a).tick 0 a).1 := by
  induction n generalizing m with
  | zero => rfl
  | succ n ih => exact ih (m.tick 0 a).1

/-- A property of machines that every tick keeps is kept by any number of them. -/
theorem skipTicks_induction {P : Machine → Prop} (hstep : ∀ m, P m → P (m.tick 0).1)
    {m : Machine} (h : P m) : P (skipTicks n m) := by
  induction n generalizing m with
  | zero => exact h
  | succ n ih => exact ih (hstep m h)

/-- Something that no tick changes is not changed by any number of them. -/
theorem skipTicks_frame {α : Type} (f : Machine → α) (hstep : ∀ m, f (m.tick 0).1 = f m) :
    f (skipTicks n m) = f m :=
  skipTicks_induction n (P := fun m' => f m' = f m) (fun m' h => (hstep m').trans h) rfl

@[simp] theorem skipTicks_program : (skipTicks n m).program = m.program :=
  skipTicks_frame m n program fun m => m.tick_program 0

@[simp] theorem skipTicks_options : (skipTicks n m).options = m.options :=
  skipTicks_frame m n options fun m => m.tick_options 0

@[simp] theorem skipTicks_mp : (skipTicks n m).mp = m.mp :=
  skipTicks_frame m n mp fun m => m.tick_mp 0

@[simp] theorem skipTicks_direction : (skipTicks n m).direction = m.direction :=
  skipTicks_frame m n direction fun m => m.tick_direction 0

@[simp] theorem skipTicks_tape : (skipTicks n m).tape = m.tape :=
  skipTicks_frame m n tape fun m => m.tick_tape 0

@[simp] theorem skipTicks_source : (skipTicks n m).source = m.source :=
  skipTicks_frame m n source fun m => m.tick_source 0

@[simp] theorem skipTicks_sink : (skipTicks n m).sink = m.sink :=
  skipTicks_frame m n sink fun m => m.tick_sink 0

@[simp] theorem skipTicks_status : (skipTicks n m).status = m.status :=
  skipTicks_frame m n status fun m => m.tick_status 0

@[simp] theorem skipTicks_steps : (skipTicks n m).steps = m.steps :=
  skipTicks_frame m n steps fun m => m.tick_steps 0

end Ticks

/-! ### The parts of a step -/

/-- The byte that the next step executes. -/
def dispatched (m : Machine) : UInt8 :=
  (m.tick (m.glyphAt m.ip)).2

/-- The machine as the next step executes that byte. -/
def poised (m : Machine) : Machine :=
  (m.tick (m.glyphAt m.ip)).1.count m.dispatched

section Poised

variable (m : Machine)

@[simp] theorem poised_program : m.poised.program = m.program := by simp [poised]

@[simp] theorem poised_options : m.poised.options = m.options := by simp [poised]

@[simp] theorem poised_mp : m.poised.mp = m.mp := by simp [poised]

@[simp] theorem poised_direction : m.poised.direction = m.direction := by simp [poised]

@[simp] theorem poised_tape : m.poised.tape = m.tape := by simp [poised]

@[simp] theorem poised_source : m.poised.source = m.source := by simp [poised]

@[simp] theorem poised_sink : m.poised.sink = m.sink := by simp [poised]

@[simp] theorem poised_status : m.poised.status = m.status := by simp [poised]

@[simp] theorem poised_image : m.poised.image = m.image := by simp [image]

@[simp] theorem poised_steps : m.poised.steps = m.steps + 1 := by simp [poised]

theorem poised_ip : m.poised.ip = (m.schedule.tick m.ip).2.getD m.ip := by
  simp [poised, tick_ip]

theorem poised_schedule : m.poised.schedule = (m.schedule.tick m.ip).1 := by
  simp [poised, tick_schedule]

/-- The byte that is executed is the one the pointer stands at by then. -/
theorem dispatched_eq : m.dispatched = m.image.glyphAt m.poised.ip := by
  rw [dispatched, tick_glyph, glyphAt, poised, count_ip]

end Poised

@[simp] theorem goOn_fault {a : Arithmetic} (fault : Fault) :
    goOn (m, some fault) a = m.fail fault := rfl

@[simp] theorem goOn_done {a : Arithmetic} : goOn (m, none) a = m.moveOn a := rfl

theorem step_of_running (h : m.status = .running) :
    m.step = goOn (m.poised.execute m.dispatched) := by
  rw [step, h]
  rfl

/-- A machine that has stopped stays as it is. -/
theorem step_of_stopped {a : Arithmetic} (h : m.status ≠ .running) : m.step a = m := by
  unfold step
  split
  · contradiction
  · rfl

/-! ### Runs -/

theorem stepMany_succ (n : Nat) (m : Machine) : stepMany (n + 1) m = (stepMany n m).step := by
  induction n generalizing m with
  | zero => rfl
  | succ n ih => exact ih m.step

theorem stepMany_add (a b : Nat) (m : Machine) :
    stepMany (a + b) m = stepMany b (stepMany a m) := by
  induction b with
  | zero => rfl
  | succ b ih => rw [← Nat.add_assoc, stepMany_succ, stepMany_succ, ih]

/-- What holds at first and is kept by every step holds after every run. -/
theorem stepMany_induction {P : Machine → Prop} (hstep : ∀ m, P m → P m.step) {m : Machine}
    (h : P m) (n : Nat) : P (stepMany n m) := by
  induction n with
  | zero => exact h
  | succ n ih =>
      rw [stepMany_succ]
      exact hstep _ ih

theorem stepMany_of_stopped (h : m.status ≠ .running) (n : Nat) : stepMany n m = m := by
  induction n with
  | zero => rfl
  | succ n ih => rw [stepMany_succ, ih, step_of_stopped h]

end Machine

end TimeTape
