/-
The pointers of a machine stay where they can be used.

A running machine reads its program at the instruction pointer and its tape at the memory
pointer without looking first.  What makes that safe is `Inside`: both pointers, and the
target of every pending redirect, name a place that exists.

The targets are the hard part.  `W` and `P` schedule redirects to places that may lie outside
the program, and a redirect may wait for any number of steps, through turns and erased ticks,
before it happens.  They are harmless because of what else such a step does: the target of `W`
is the place the pointer moves to next, and the target of `P` is the place right before it.  If
the target is outside, so is the pointer, and the machine halts in that very step.  `Leaving`
says this of the moment between executing a byte and moving on.
-/
import TimeTape.Proofs.Brackets
import TimeTape.Proofs.Execution
import TimeTape.Proofs.Word

namespace TimeTape

/-! ### Places of a program -/

/-- Whether `i` is the index of a byte of the program, and a word. -/
structure Place (code : Bytes) (i : Int) : Prop where
  nonneg : 0 ≤ i
  lt : i < code.length
  fits : FitsWord i

namespace Program

variable {code : Bytes} {d : Direction} {i j : Int}

/-- The program as it reads in a direction. -/
def text (code : Bytes) : Direction → Bytes
  | .forward => code
  | .reverse => mirror code

theorem image_ofBytes (code : Bytes) (d : Direction) :
    (ofBytes code).image d = Image.ofBytes (text code d) := by
  cases d <;> rfl

@[simp] theorem length_text (code : Bytes) (d : Direction) :
    (text code d).length = code.length := by
  cases d <;> simp [text, mirror]

theorem size_image (code : Bytes) (d : Direction) :
    ((ofBytes code).image d).size = code.length := by
  rw [image_ofBytes]
  simp [Image.ofBytes, Image.size]

/-- Inside the program, what an image reads is a byte of the program in its direction. -/
theorem getElem?_text (hlo : 0 ≤ i) (hlt : i < code.length) :
    (text code d)[i.toNat]? = some (((ofBytes code).image d).glyphAt i) := by
  have hnat : i.toNat < (text code d).length := by
    rw [length_text]
    omega
  rw [image_ofBytes, Image.glyphAt, if_neg (by omega), Image.ofBytes]
  simp [Array.getD_eq_getD_getElem?, List.getElem?_eq_getElem hnat]

/-- The partner of a bracket stands in the program, whatever the direction. -/
theorem partner_inside
    (h : ((ofBytes code).image d).brackets.forward[i]? = some (some j) ∨
      ((ofBytes code).image d).brackets.backward[i]? = some (some j)) :
    0 ≤ j ∧ j < code.length := by
  rw [← length_text code d]
  rw [image_ofBytes] at h
  rcases h with h | h
  · exact Pairing.forward_partner_inside h
  · exact Pairing.backward_partner_inside h

end Program

/-- A tick keeps what is true of the pointer and of every target. -/
theorem Schedule.tick_keeps {P : Int → Prop} {s : Schedule} {ip : Int}
    (hs : ∀ r ∈ s, P r.target) (hip : P ip) :
    (∀ r ∈ (s.tick ip).1, P r.target) ∧ P ((s.tick ip).2.getD ip) := by
  cases s with
  | nil => simpa [Schedule.tick] using hip
  | cons top below =>
      have htop : P top.target := hs top (by simp)
      have hbelow : ∀ r ∈ below, P r.target := fun r hr => hs r (by simp [hr])
      simp only [Schedule.tick]
      split
      · refine ⟨?_, hip⟩
        intro r hr
        rcases List.mem_cons.mp hr with rfl | hr'
        · exact htop
        · exact hbelow r hr'
      · split
        · -- The redirect that is put back aims at the place it calls the pointer away from.
          refine ⟨?_, htop⟩
          intro r hr
          rcases List.mem_cons.mp hr with rfl | hr'
          · exact hip
          · exact hbelow r hr'
        · exact ⟨hbelow, htop⟩

namespace Machine

variable {code : Bytes} {m m' : Machine} {g : UInt8}

/-- Everything a running machine points at is there. -/
structure Inside (code : Bytes) (m : Machine) : Prop where
  program : m.program = Program.ofBytes code
  pointer : Place code m.ip
  targets : ∀ r ∈ m.schedule, Place code r.target
  cell : m.OnTape

theorem Inside.tick (h : Inside code m) (g : UInt8) : Inside code (m.tick g).1 := by
  obtain ⟨htargets, hpointer⟩ := Schedule.tick_keeps h.targets h.pointer
  refine ⟨?_, ?_, ?_, ?_⟩
  · rw [tick_program]
    exact h.program
  · rw [tick_ip]
    exact hpointer
  · rw [tick_schedule]
    exact htargets
  · simpa [OnTape] using h.cell

theorem Inside.skipTicks (h : Inside code m) (n : Nat) : Inside code (skipTicks n m) :=
  skipTicks_induction n (fun _ h => h.tick 0) h

theorem Inside.poised (h : Inside code m) : Inside code m.poised := by
  have htick := h.tick (m.glyphAt m.ip)
  refine ⟨?_, ?_, ?_, ?_⟩
  · simpa using h.program
  · simpa [Machine.poised] using htick.pointer
  · simpa [Machine.poised] using htick.targets
  · simpa [OnTape] using h.cell

/-! ### Between executing a byte and moving on -/

/-- If the pointer is going to stay in the program, every target is in it too. -/
structure Leaving (code : Bytes) (m : Machine) : Prop where
  program : m.program = Program.ofBytes code
  targets : Place code m.next → ∀ r ∈ m.schedule, Place code r.target
  cell : m.OnTape

theorem stride_forward (h : m.direction = .forward) (n : UInt8) : m.stride n = n.toNat := by
  simp [stride_eq, h, Direction.delta]

theorem stride_reverse (h : m.direction = .reverse) (n : UInt8) : m.stride n = -n.toNat := by
  simp [stride_eq, h, Direction.delta]

/-- A leap after which the pointer moves on to no negative place has not left the words. -/
theorem leap_exact {d : Direction} {i : Int} (hlo : 0 ≤ i) (hfits : FitsWord i) (n : UInt8)
    (hnext : 0 ≤ wrap (wrap (i + n.toNat * d.delta) + d.delta)) :
    wrap (i + n.toNat * d.delta) = i + n.toNat * d.delta ∧
      wrap (i + n.toNat * d.delta + d.delta) = i + n.toNat * d.delta + d.delta := by
  have hn : n.toNat < 256 := n.toNat_lt
  obtain ⟨-, hword⟩ := hfits
  cases d with
  | forward =>
      simp only [Direction.delta, Int.mul_one] at hnext ⊢
      by_cases hland : i + n.toNat < 9223372036854775808
      · have hleap : wrap (i + n.toNat) = i + n.toNat := wrap_of_fits ⟨by omega, hland⟩
        rw [hleap] at hnext
        by_cases hlast : i + n.toNat + 1 < 9223372036854775808
        · exact ⟨hleap, wrap_of_fits ⟨by omega, hlast⟩⟩
        · -- The place after the greatest word is negative.
          rw [wrap_of_ge (by omega) (by omega)] at hnext
          omega
      · have hleap : wrap (i + n.toNat) = i + n.toNat - 18446744073709551616 :=
          wrap_of_ge (by omega) (by omega)
        rw [hleap, wrap_of_fits ⟨by omega, by omega⟩] at hnext
        omega
  | reverse =>
      simp only [Direction.delta]
      exact ⟨wrap_of_fits ⟨by omega, by omega⟩, wrap_of_fits ⟨by omega, by omega⟩⟩

/-- Moving on to no negative place does not leave the words either. -/
theorem move_exact {d : Direction} {i : Int} (hlo : 0 ≤ i) (hfits : FitsWord i)
    (hnext : 0 ≤ wrap (i + d.delta)) : wrap (i + d.delta) = i + d.delta := by
  have hstay : wrap (i + (0 : UInt8).toNat * d.delta) = i := by simp [wrap_of_fits hfits]
  obtain ⟨-, hon⟩ := leap_exact hlo hfits 0 (by rwa [hstay])
  simpa using hon

/-- A leap that lands outside the program is not followed by a place inside it. -/
theorem place_of_leap (h : Place code m.ip) (n : UInt8)
    (hnext : Place code (wrap (wrap (m.ip + m.stride n) + m.direction.delta))) :
    Place code (wrap (m.ip + m.stride n)) := by
  have hnonneg := hnext.nonneg
  rw [stride_eq] at hnonneg
  obtain ⟨hleap, hon⟩ := leap_exact h.nonneg h.fits n hnonneg
  rw [← stride_eq] at hleap hon
  obtain ⟨hlo, hlt, -⟩ := h
  obtain ⟨hnlo, hnlt, -⟩ := hnext
  rw [hleap, hon] at hnlo hnlt
  refine ⟨?_, ?_, fitsWord_wrap _⟩
  · rw [hleap]
    cases hd : m.direction with
    | forward =>
        rw [stride_forward hd]
        omega
    | reverse =>
        rw [hd, Direction.delta] at hnlo
        omega
  · rw [hleap]
    cases hd : m.direction with
    | forward =>
        rw [hd, Direction.delta] at hnlt
        omega
    | reverse =>
        rw [stride_reverse hd]
        omega

/-- A byte that succeeds leaves no target outside unless the pointer leaves the program too. -/
theorem Inside.execute (h : Inside code m) (hexec : m.execute g = (m', none)) :
    Leaving code m' := by
  have hprogram : m'.program = Program.ofBytes code :=
    (execute_fixed h.cell hexec).program.trans h.program
  have hcell := execute_onTape h.cell hexec
  cases course_of_execute h.cell hexec with
  | stay ip direction schedule
  | turn _ ip direction schedule
  | leap _ ip direction schedule
  | follow _ _ _ ip direction schedule =>
      refine ⟨hprogram, fun _ => ?_, hcell⟩
      rw [schedule]
      exact h.targets
  | erase _ ip direction schedule =>
      refine ⟨hprogram, fun _ => ?_, hcell⟩
      rw [schedule]
      exact (h.skipTicks _).targets
  | wait _ ip direction schedule =>
      refine ⟨hprogram, fun hnext => ?_, hcell⟩
      rw [schedule]
      intro r hr
      rcases List.mem_cons.mp hr with rfl | hr'
      · rw [next, ip, direction] at hnext
        exact hnext
      · exact h.targets r hr'
  | persist _ ip direction schedule =>
      refine ⟨hprogram, fun hnext => ?_, hcell⟩
      rw [schedule]
      intro r hr
      rcases List.mem_cons.mp hr with rfl | hr'
      · rw [next, ip, direction] at hnext
        show Place code m'.ip
        rw [ip]
        exact place_of_leap h.pointer m.cell hnext
      · exact h.targets r hr'

/-! ### Every machine a run reaches -/

/-- What holds of a machine that a run of the program has reached. -/
structure Reached (code : Bytes) (m : Machine) : Prop where
  program : m.program = Program.ofBytes code
  running : m.status = .running → Inside code m
  halted : m.status = .halted → m.OnTape ∧ PastExit code.length m.direction m.ip

theorem size_image (h : m.program = Program.ofBytes code) : m.image.size = code.length := by
  rw [image, h, Program.size_image]

theorem Leaving.moveOn (h : Leaving code m) (hrunning : m.status = .running) :
    Reached code m.moveOn := by
  have hsize := size_image h.program
  have harrival := arrival_of_moveOn m
  generalize m.moveOn = m' at harrival ⊢
  cases harrival with
  | inside lo hi =>
      have hplace : Place code m.next := ⟨lo, hsize ▸ hi, fitsWord_wrap _⟩
      exact ⟨h.program, fun _ => ⟨h.program, hplace, h.targets hplace, h.cell⟩, by simp [hrunning]⟩
  | exit past => exact ⟨h.program, by simp, fun _ => ⟨h.cell, hsize ▸ past⟩⟩
  | beforeStart direction negative => exact ⟨h.program, by simp [fail], by simp [fail]⟩
  | pastEnd direction past => exact ⟨h.program, by simp [fail], by simp [fail]⟩

theorem Inside.step (h : Inside code m) (hrunning : m.status = .running) : Reached code m.step := by
  rw [step_of_running hrunning]
  cases hexec : m.poised.execute m.dispatched with
  | mk m' fault? =>
      have hfixed := execute_fixed h.poised.cell hexec
      cases fault? with
      | none =>
          refine (h.poised.execute hexec).moveOn ?_
          rw [hfixed.status, poised_status, hrunning]
      | some fault =>
          refine ⟨?_, by simp [fail], by simp [fail]⟩
          exact hfixed.program.trans h.poised.program

theorem Reached.step (h : Reached code m) : Reached code m.step := by
  by_cases hrunning : m.status = .running
  · exact (h.running hrunning).step hrunning
  · rw [step_of_stopped hrunning]
    exact h

section Start

variable (code : Bytes) (options : Options) (source : Source) (sink : Sink)

theorem start_status :
    (start code options source sink).status = if code.isEmpty then .halted else .running := by
  simp [start]

theorem start_reached : Reached code (start code options source sink) := by
  have hcell : (start code options source sink).OnTape := by
    simp [start, OnTape, Tape.blank, Tape.size]
  refine ⟨by simp [start], ?_, ?_⟩
  · intro hrunning
    have hne : code ≠ [] := by
      rintro rfl
      simp [start_status] at hrunning
    refine ⟨by simp [start], ?_, by simp [start], hcell⟩
    have hpos := List.length_pos_iff.mpr hne
    refine ⟨by simp [start], ?_, by simp [start, FitsWord]⟩
    simpa [start] using hpos
  · intro hhalted
    refine ⟨hcell, ?_⟩
    cases code with
    | nil => simp [start, PastExit]
    | cons b rest => simp [start_status] at hhalted

/-- Every machine a run reaches is one whose pointers can be used. -/
theorem reached (n : Nat) : Reached code (stepMany n (start code options source sink)) :=
  stepMany_induction (fun _ h => h.step) (start_reached code options source sink) n

end Start

/-- A machine that has been running all along has counted its steps. -/
theorem steps_of_running {options : Options} {source : Source} {sink : Sink} {k : Nat}
    (h : ∀ j < k, (stepMany j (start code options source sink)).status = .running) :
    (stepMany k (start code options source sink)).steps = UInt64.ofNat k := by
  induction k with
  | zero => simp [stepMany, start]
  | succ k ih =>
      have hrunning := h k (Nat.lt_succ_self k)
      have hcell := ((reached code options source sink k).running hrunning).cell
      rw [stepMany_succ, step_steps hcell hrunning, ih fun j hj => h j (Nat.lt_succ_of_lt hj),
        UInt64.ofNat_add]
      rfl

theorem PastExit.outside {size : Nat} {d : Direction} {i : Int} (h : PastExit size d i) :
    ¬(0 ≤ i ∧ i < size) := by
  cases d with
  | forward =>
      have hle : (size : Int) ≤ i := h
      omega
  | reverse =>
      have hlt : i < 0 := h
      omega

/--
**The pointers stay inside.**  In every state a run can reach, the image in use is the one of
the direction of travel.  Unless the machine has failed, the memory pointer is on the tape, and
the machine has halted exactly when the instruction pointer is outside the program, on the side
it travels to.  While it runs, the pointer and the target of every pending redirect are in the
program, and so is the pointer wherever the redirects of the next step send it, however many
ticks that step erases.
-/
theorem pointers_stay_inside (code : Bytes) (options : Options) (source : Source) (sink : Sink)
    (n : Nat) :
    let m := stepMany n (start code options source sink)
    m.image = (Program.ofBytes code).image m.direction ∧
      (m.failure? = none →
        (0 ≤ m.mp ∧ m.mp < m.tape.size) ∧
        (m.status = .halted ↔ ¬(0 ≤ m.ip ∧ m.ip < m.image.size)) ∧
        (m.status = .halted ↔ PastExit m.image.size m.direction m.ip) ∧
        (m.status = .running →
          (0 ≤ m.ip ∧ m.ip < m.image.size) ∧
          (∀ r ∈ m.schedule, 0 ≤ r.target ∧ r.target < m.image.size) ∧
          ∀ k, 0 ≤ (skipTicks k m.poised).ip ∧ (skipTicks k m.poised).ip < m.image.size)) := by
  intro m
  have h : Reached code m := reached code options source sink n
  refine ⟨by rw [image, h.program], fun hok => ?_⟩
  rw [size_image h.program]
  cases hs : m.status with
  | failed f => simp [failure?, hs] at hok
  | halted =>
      obtain ⟨hcell, hpast⟩ := h.halted hs
      exact ⟨hcell, by simpa using hpast.outside, by simpa using hpast, by simp⟩
  | running =>
      have hin := h.running hs
      obtain ⟨hlo, hlt, -⟩ := hin.pointer
      have hstay : ¬PastExit code.length m.direction m.ip := fun hpast => hpast.outside ⟨hlo, hlt⟩
      refine ⟨hin.cell, by simpa using ⟨hlo, hlt⟩, by simpa using hstay, fun _ => ?_⟩
      refine ⟨⟨hlo, hlt⟩, ?_, ?_⟩
      · intro r hr
        exact ⟨(hin.targets r hr).nonneg, (hin.targets r hr).lt⟩
      · intro k
        have hticked := (hin.poised.skipTicks k).pointer
        exact ⟨hticked.nonneg, hticked.lt⟩

/-- The program `+P>+` is running after two steps, with a redirect on its schedule. -/
theorem pointers_stay_inside_after_persist :
    let m := stepMany 2 (start [0x2B, 0x50, 0x3E, 0x2B] {} {} {})
    m.status = .running ∧ m.schedule ≠ [] ∧ (0 ≤ m.ip ∧ m.ip < m.image.size) ∧
      ∀ r ∈ m.schedule, 0 ≤ r.target ∧ r.target < m.image.size := by
  intro m
  have hrunning : m.status = .running := by decide
  obtain ⟨hip, htargets, -⟩ :=
    ((pointers_stay_inside [0x2B, 0x50, 0x3E, 0x2B] {} {} {} 2).2 (by decide)).2.2.2 hrunning
  exact ⟨hrunning, by decide, hip, htargets⟩

end Machine

end TimeTape
