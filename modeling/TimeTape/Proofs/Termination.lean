/-
Programs that only wait come to an end.

Without `P`, `R` and brackets a program runs forward, and what is scheduled happens once.  It need
not be short for that: a redirect goes back over other `W`s, which are executed again and schedule
their redirects again, so neither the pointer nor the depth of the schedule tells how far a run has
come.

The measure is what the run may still have to execute.  `toll` is that number for a text with
nothing scheduled.  A byte costs its own step, and a `W` may have everything behind it executed
twice, once as the run goes on and once more from its target.  The `outlook` of a machine adds up
the toll from the pointer and the tolls from all pending targets.  A `W` moves half of its toll into
the schedule and pays one; every other byte pays one at least, and a redirect drops the toll from
the place it leaves.  Ticks that are erased only drop more, whether or not the pointer follows them.

The farthest place an instruction can send the pointer to is assumed to be a word.  The number of
cells is not bounded by the text in any useful way, since the moves may be repeated as often as all
else.  A tape that no word can count is the one thing that can keep such a run from a clean end.
-/
import TimeTape.Proofs.Failures
import Mathlib.Algebra.Order.Ring.Nat
import Mathlib.Data.Nat.Find

namespace TimeTape

/-! ### Tolls -/

/-- The most steps that a text can take when nothing is scheduled. -/
def toll : Bytes → Nat
  | [] => 0
  | b :: rest => if b = Instruction.wait.glyph then 2 * toll rest + 1 else toll rest + 1

/-- The toll of what is left of a program at an index. -/
def tollFrom (code : Bytes) (i : Int) : Nat :=
  toll (code.drop i.toNat)

/-- Counted with the step after the last, the toll at most doubles with every `W`. -/
theorem toll_add_one_le (code : Bytes) :
    toll code + 1 ≤ 2 ^ code.count Instruction.wait.glyph
      * (code.length - code.count Instruction.wait.glyph + 1) := by
  induction code with
  | nil => simp [toll]
  | cons b rest ih =>
      have hle : rest.count Instruction.wait.glyph ≤ rest.length := List.count_le_length
      by_cases hb : b = Instruction.wait.glyph
      · rw [toll, if_pos hb, hb, List.count_cons_self, List.length_cons, Nat.add_sub_add_right,
          Nat.pow_succ]
        calc 2 * toll rest + 1 + 1 = 2 * (toll rest + 1) := by omega
          _ ≤ 2 * (2 ^ rest.count Instruction.wait.glyph
                * (rest.length - rest.count Instruction.wait.glyph + 1)) :=
              Nat.mul_le_mul_left 2 ih
          _ = _ := by rw [Nat.mul_comm _ 2, Nat.mul_assoc]
      · rw [toll, if_neg hb, List.count_cons_of_ne hb, List.length_cons, Nat.succ_sub hle,
          Nat.succ_eq_add_one, Nat.mul_succ]
        have hpow : 1 ≤ 2 ^ rest.count Instruction.wait.glyph := Nat.one_le_two_pow
        omega

theorem toll_drop_le (code : Bytes) (j : Nat) : toll (code.drop j) ≤ toll code := by
  induction code generalizing j with
  | nil => simp
  | cons b rest ih =>
      cases j with
      | zero => exact Nat.le_refl _
      | succ j =>
          have hrest := ih j
          rw [List.drop_succ_cons, toll]
          split <;> omega

section TollFrom

variable {code : Bytes} {i j : Int}

theorem drop_toNat (hlo : 0 ≤ i) {b : UInt8} (hb : code[i.toNat]? = some b) :
    code.drop i.toNat = b :: code.drop (i + 1).toNat := by
  obtain ⟨hlt, hget⟩ := List.getElem?_eq_some_iff.mp hb
  rw [List.drop_eq_getElem_cons hlt, hget, show (i + 1).toNat = i.toNat + 1 by omega]

/-- A `W` costs its step, and what is behind it twice. -/
theorem tollFrom_wait (hlo : 0 ≤ i) (hb : code[i.toNat]? = some Instruction.wait.glyph) :
    tollFrom code i = 2 * tollFrom code (i + 1) + 1 := by
  rw [tollFrom, drop_toNat hlo hb, toll, if_pos rfl, tollFrom]

/-- Every place farther on costs less. -/
theorem tollFrom_lt (hlo : 0 ≤ i) (hlt : i < code.length) (hij : i < j) :
    tollFrom code j < tollFrom code i := by
  have hnat : i.toNat < code.length := by omega
  have hb : code[i.toNat]? = some code[i.toNat] := List.getElem?_eq_getElem hnat
  have hrest : tollFrom code j ≤ tollFrom code (i + 1) := by
    have hdrop : code.drop j.toNat = (code.drop (i + 1).toNat).drop (j.toNat - (i + 1).toNat) := by
      rw [List.drop_drop]
      congr 1
      omega
    rw [tollFrom, hdrop]
    exact toll_drop_le _ _
  have hnext : tollFrom code (i + 1) < tollFrom code i := by
    rw [tollFrom, tollFrom, drop_toNat hlo hb, toll]
    split <;> omega
  omega

end TollFrom

namespace Schedule

/-- Whether no redirect of a schedule is put back when it is due. -/
def Once (s : Schedule) : Prop :=
  ∀ r ∈ s, r.recurring = false

/-- The tolls from all targets of a schedule. -/
def tollOn (code : Bytes) (s : Schedule) : Nat :=
  (s.map fun r => tollFrom code r.target).sum

@[simp] theorem tollOn_cons (code : Bytes) (r : Redirect) (s : Schedule) :
    tollOn code (r :: s) = tollFrom code r.target + tollOn code s := by
  simp [tollOn]

theorem once_tick {s : Schedule} (h : s.Once) (ip : Int) : (s.tick ip).1.Once := by
  cases s with
  | nil => exact h
  | cons top below =>
      obtain ⟨htop, hbelow⟩ := List.forall_mem_cons.mp h
      simp only [tick, htop]
      split
      · exact List.forall_mem_cons.mpr ⟨rfl, hbelow⟩
      · exact hbelow

/-- A redirect that happens takes the toll from its target out of the schedule. -/
theorem tollOn_tick (code : Bytes) {s : Schedule} (h : s.Once) (ip : Int) :
    tollOn code (s.tick ip).1 ≤ tollOn code s ∧
      tollFrom code ((s.tick ip).2.getD ip) + tollOn code (s.tick ip).1
        ≤ tollFrom code ip + tollOn code s := by
  cases s with
  | nil => exact ⟨Nat.le_refl _, Nat.le_refl _⟩
  | cons top below =>
      have htop : top.recurring = false := h top (by simp)
      simp only [tick, htop]
      split
      · simp
      · simp only [tollOn_cons, Bool.false_eq_true, if_false, Option.getD_some]
        omega

end Schedule

/-- A program without the instructions that recur, turn around or loop. -/
structure OnlyWaits (code : Bytes) : Prop where
  persist : Instruction.persist.glyph ∉ code
  reverse : Instruction.reverse.glyph ∉ code
  opener : Instruction.opener.glyph ∉ code
  closer : Instruction.closer.glyph ∉ code

theorem OnlyWaits.not_bracket {code : Bytes} (h : OnlyWaits code) {b : Instruction}
    (hb : b.isBracket) : b.glyph ∉ code := by
  cases b with
  | opener => exact h.opener
  | closer => exact h.closer
  | _ => simp [Instruction.isBracket] at hb

namespace Machine

variable {code : Bytes} {m m' : Machine} {g : UInt8}

/-! ### Every step lowers the outlook -/

/-- What a machine may still have to execute. -/
def outlook (code : Bytes) (m : Machine) : Nat :=
  tollFrom code m.ip + m.schedule.tollOn code

/-- A machine that runs forward through its program, with nothing scheduled that recurs. -/
structure Advancing (code : Bytes) (m : Machine) : Prop where
  inside : Inside code m
  forward : m.direction = .forward
  once : m.schedule.Once

namespace Advancing

theorem tick (h : Advancing code m) (g : UInt8) :
    Advancing code (m.tick g).1 ∧ (m.tick g).1.schedule.tollOn code ≤ m.schedule.tollOn code ∧
      outlook code (m.tick g).1 ≤ outlook code m := by
  obtain ⟨hpending, hall⟩ := Schedule.tollOn_tick code h.once m.ip
  refine ⟨⟨h.inside.tick g, ?_, ?_⟩, ?_, ?_⟩
  · rw [tick_direction]
    exact h.forward
  · rw [tick_schedule]
    exact Schedule.once_tick h.once m.ip
  · rw [tick_schedule]
    exact hpending
  · rw [outlook, tick_ip, tick_schedule]
    exact hall

theorem skip (h : Advancing code m) (n : Nat) :
    Advancing code (skipTicks n m) ∧
      (skipTicks n m).schedule.tollOn code ≤ m.schedule.tollOn code ∧
      outlook code (skipTicks n m) ≤ outlook code m := by
  refine skipTicks_induction n
    (P := fun m' => Advancing code m' ∧ m'.schedule.tollOn code ≤ m.schedule.tollOn code ∧
      outlook code m' ≤ outlook code m) ?_ ⟨h, Nat.le_refl _, Nat.le_refl _⟩
  rintro m' ⟨h', hpending, hall⟩
  obtain ⟨htick, hpending', hall'⟩ := h'.tick 0
  exact ⟨htick, Nat.le_trans hpending' hpending, Nat.le_trans hall' hall⟩

theorem poised (h : Advancing code m) :
    Advancing code m.poised ∧ outlook code m.poised ≤ outlook code m := by
  obtain ⟨htick, -, hall⟩ := h.tick (m.glyphAt m.ip)
  refine ⟨⟨h.inside.poised, ?_, ?_⟩, ?_⟩
  · simpa using h.forward
  · simpa [Machine.poised] using htick.once
  · simpa [outlook, Machine.poised] using hall

/-- The byte that is executed is the one of the program at the pointer. -/
theorem byte (h : Advancing code m) : code[m.poised.ip.toNat]? = some m.dispatched := by
  have hplace := h.inside.poised.pointer
  have himage : m.image = (Program.ofBytes code).image .forward := by
    rw [image, h.inside.program, h.forward]
  rw [dispatched_eq, himage]
  exact Program.getElem?_text (d := .forward) hplace.nonneg hplace.lt

end Advancing

theorem next_forward (hd : m.direction = .forward) (hlo : 0 ≤ m.ip)
    (hhi : m.ip + 1 < 9223372036854775808) : m.next = m.ip + 1 := by
  rw [next, hd, Direction.delta, wrap_of_fits ⟨by omega, hhi⟩]

/-- Moving on from a place of the program, or from one that a leap away, costs a step. -/
theorem tollFrom_next_lt (hcode : FitsWord (code.length + 255)) (hd : m.direction = .forward)
    {i : Int} (hi : Place code i) (hle : i ≤ m.ip) (hleap : m.ip ≤ i + 255) :
    tollFrom code m.next < tollFrom code i := by
  obtain ⟨hlo, hlt, -⟩ := hi
  obtain ⟨-, hword⟩ := hcode
  rw [next_forward hd (by omega) (by omega)]
  exact tollFrom_lt hlo hlt (by omega)

/-- What executing a byte leaves to be executed behind it. -/
structure Advances (code : Bytes) (m m' : Machine) : Prop where
  forward : m'.direction = .forward
  once : m'.schedule.Once
  less : tollFrom code m'.next + m'.schedule.tollOn code < outlook code m

theorem Advancing.execute (hcode : FitsWord (code.length + 255)) (honly : OnlyWaits code)
    (h : Advancing code m) (hbyte : code[m.ip.toNat]? = some g)
    (hexec : m.execute g = (m', none)) : Advances code m m' := by
  have hmem : g ∈ code := List.mem_of_getElem? hbyte
  have hplace := h.inside.pointer
  have hforward : m'.direction = m.direction → m'.direction = .forward := fun hd => hd.trans h.forward
  cases course_of_execute h.inside.cell hexec with
  | turn glyph ip direction schedule => exact absurd (glyph ▸ hmem) honly.reverse
  | persist glyph ip direction schedule => exact absurd (glyph ▸ hmem) honly.persist
  | follow b bracket glyph ip direction schedule =>
      exact absurd (glyph ▸ hmem) (honly.not_bracket bracket)
  | stay ip direction schedule =>
      have hless := tollFrom_next_lt hcode (hforward direction) hplace (by omega) (by omega)
      refine ⟨hforward direction, schedule ▸ h.once, ?_⟩
      rw [schedule, outlook]
      omega
  | leap glyph ip direction schedule =>
      have hn : m.cell.toNat < 256 := m.cell.toNat_lt
      have hlo := hplace.nonneg
      have hlt := hplace.lt
      have hword := hcode.2
      rw [stride_forward h.forward, wrap_of_fits ⟨by omega, by omega⟩] at ip
      have hless := tollFrom_next_lt hcode (hforward direction) hplace (by omega) (by omega)
      refine ⟨hforward direction, schedule ▸ h.once, ?_⟩
      rw [schedule, outlook]
      omega
  | erase glyph ip direction schedule =>
      obtain ⟨hskip, hpending, hall⟩ := h.skip m.cell.toNat
      refine ⟨hforward direction, schedule ▸ hskip.once, ?_⟩
      rw [schedule]
      by_cases hmoves : m.options.eraseMovesPointer
      · -- The pointer stands where the erased redirects have put it.
        rw [if_pos hmoves] at ip
        have hless := tollFrom_next_lt hcode (hforward direction) hskip.inside.pointer (by omega)
          (by omega)
        rw [outlook] at hall
        omega
      · rw [if_neg hmoves] at ip
        have hless := tollFrom_next_lt hcode (hforward direction) hplace (by omega) (by omega)
        rw [outlook]
        omega
  | wait glyph ip direction schedule =>
      have htoll := tollFrom_wait hplace.nonneg (glyph ▸ hbyte)
      have hlo := hplace.nonneg
      have hlt := hplace.lt
      have hword := hcode.2
      have hnext : m'.next = m.ip + 1 :=
        ip ▸ next_forward (hforward direction) (by omega) (by omega)
      have htarget : wrap (m.ip + m.direction.delta) = m.ip + 1 :=
        next_forward h.forward hlo (by omega)
      rw [htarget] at schedule
      refine ⟨hforward direction, ?_, ?_⟩
      · rw [schedule]
        exact List.forall_mem_cons.mpr ⟨rfl, h.once⟩
      · rw [hnext, schedule, Schedule.tollOn_cons, outlook, htoll]
        show tollFrom code (m.ip + 1) + (tollFrom code (m.ip + 1) + _) < _
        omega

/-- A step after which the machine runs on has made its outlook smaller. -/
theorem Advancing.step (hcode : FitsWord (code.length + 255)) (honly : OnlyWaits code)
    (h : Advancing code m) (hrunning : m.status = .running) (hstep : m.step.status = .running) :
    Advancing code m.step ∧ outlook code m.step < outlook code m := by
  have hin := (h.inside.step hrunning).running hstep
  obtain ⟨hpoised, hall⟩ := h.poised
  obtain ⟨m', hexec, heq, -⟩ := exists_execute_of_running hrunning hstep
  obtain ⟨hforward, honce, hless⟩ := hpoised.execute hcode honly h.byte hexec
  rw [heq] at hin ⊢
  exact ⟨⟨hin, hforward, honce⟩, Nat.lt_of_lt_of_le hless hall⟩

/-! ### A sink without a limit -/

theorem execute_room (hm : m.OnTape) {fault? : Option Fault} (hexec : m.execute g = (m', fault?))
    (hroom : m.sink.room = none) : m'.sink.room = none := by
  cases effect_of_eq hm hexec with
  | comment _ | follow _ _ _ _ _ _ | read _ _ _ _ _ | unread _ _ _ _ _ => simpa using hroom
  | erase _ => split <;> simpa using hroom
  | write _ _ sink written =>
      simp only [Sink.write, hroom, Except.ok.injEq] at written
      rw [← written]
  | _ => exact hroom

theorem Inside.room_step (h : Inside code m) (hrunning : m.status = .running)
    (hroom : m.sink.room = none) : m.step.sink.room = none := by
  obtain ⟨m', fault?, ip, status, hexec, hstep⟩ := exists_execute_of_step hrunning
  have hkept := execute_room h.poised.cell hexec (by simpa using hroom)
  rw [hstep]
  exact hkept

/-- A machine that advances has no reason to fail but the want of a word for its next cell. -/
theorem Advancing.not_failed (hcode : FitsWord (code.length + 255)) (honly : OnlyWaits code)
    (h : Advancing code m) (hrunning : m.status = .running) (hroom : m.sink.room = none)
    (htape : FitsWord m.step.tape.size) (f : Failure) : m.step.status ≠ .failed f := by
  intro hfail
  have hmem : m.dispatched ∈ code := List.mem_of_getElem? h.byte
  cases (h.inside.mishap_of_step hcode htape hrunning hfail).1 with
  | belowFirstCell fault glyph direction before after =>
      exact absurd (h.forward.symm.trans direction) (by simp)
  | looseBracket b bracket fault glyph jumps unmatched =>
      exact absurd (glyph ▸ hmem) (honly.not_bracket bracket)
  | unwritten reason fault glyph direction refused => simp [Sink.write, hroom] at refused
  | unread reason fault glyph direction failed =>
      exact absurd (h.forward.symm.trans direction) (by simp)

/-! ### The whole run -/

section Run

variable {options : Options} {source : Source} {sink : Sink}

/-- While a run goes on, its steps and its outlook together stay within the toll of the program. -/
theorem advancing_of_running (hcode : FitsWord (code.length + 255)) (honly : OnlyWaits code)
    {n : Nat} (h : (stepMany n (start code options source sink)).status = .running) :
    Advancing code (stepMany n (start code options source sink)) ∧
      outlook code (stepMany n (start code options source sink)) + n ≤ toll code := by
  induction n with
  | zero =>
      have hin := (start_reached code options source sink).running h
      refine ⟨⟨hin, by simp [stepMany, start], ?_⟩, ?_⟩
      · intro r hr
        simp [stepMany, start] at hr
      · simp [outlook, stepMany, start, tollFrom, Schedule.tollOn]
  | succ n ih =>
      rw [stepMany_succ] at h ⊢
      have hrunning : (stepMany n (start code options source sink)).status = .running := by
        by_contra hstopped
        rw [step_of_stopped hstopped] at h
        exact hstopped h
      obtain ⟨hadvancing, hle⟩ := ih hrunning
      obtain ⟨hstep, hless⟩ := hadvancing.step hcode honly hrunning h
      exact ⟨hstep, by omega⟩

/-- A run is over by the time it has paid the toll of its program. -/
theorem stopped_after_toll (hcode : FitsWord (code.length + 255)) (honly : OnlyWaits code) :
    (stepMany (toll code) (start code options source sink)).status ≠ .running := by
  intro hrunning
  obtain ⟨hadvancing, hle⟩ := advancing_of_running hcode honly hrunning
  have hplace := hadvancing.inside.pointer
  have hpos := tollFrom_lt hplace.nonneg hplace.lt (Int.lt_succ _)
  rw [outlook] at hle
  omega

theorem room_of_run (hroom : sink.room = none) (n : Nat) :
    (stepMany n (start code options source sink)).sink.room = none := by
  induction n with
  | zero => simpa [stepMany, start] using hroom
  | succ n ih =>
      rw [stepMany_succ]
      by_cases hrunning : (stepMany n (start code options source sink)).status = .running
      · exact ((reached code options source sink n).running hrunning).room_step hrunning ih
      · rw [step_of_stopped hrunning]
        exact ih

end Run

/--
**Programs that only wait come to an end.**  A program of `n` bytes without `P`, `R` and brackets,
of which `w` are `W`, stops within `2 ^ w * (n - w + 1) - 1` steps, whatever its options and its
input.  If its output is never refused, it halts cleanly: only a tape with more cells than a word
can count could make it fail.
-/
theorem waiting_program_halts (code : Bytes) (options : Options) (source : Source) (sink : Sink)
    (honly : OnlyWaits code) (hroom : sink.room = none) (hcode : FitsWord (code.length + 255)) :
    let first := start code options source sink
    let w := code.count Instruction.wait.glyph
    let bound := 2 ^ w * (code.length - w + 1) - 1
    ∃ k ≤ bound, (∀ j < k, (stepMany j first).status = .running) ∧
      (stepMany k first).status ≠ .running ∧
      (FitsWord (stepMany k first).tape.size → (stepMany k first).status = .halted) ∧
      (stepMany k first).steps = UInt64.ofNat k ∧ (stepMany k first).steps.toNat ≤ bound := by
  classical
  intro first w bound
  have hex : ∃ k, (stepMany k first).status ≠ .running :=
    ⟨toll code, stopped_after_toll hcode honly⟩
  have hstopped := Nat.find_spec hex
  have hbefore : ∀ j < Nat.find hex, (stepMany j first).status = .running :=
    fun j hj => not_not.mp (Nat.find_min hex hj)
  have hle : Nat.find hex ≤ bound := by
    have htoll : Nat.find hex ≤ toll code := Nat.find_min' hex (stopped_after_toll hcode honly)
    have hbound : toll code + 1 ≤ 2 ^ w * (code.length - w + 1) := toll_add_one_le code
    omega
  generalize Nat.find hex = k at hstopped hbefore hle
  have hsteps := steps_of_running hbefore
  refine ⟨k, hle, hbefore, hstopped, ?_, hsteps, ?_⟩
  · intro htape
    cases hs : (stepMany k first).status with
    | running => exact absurd hs hstopped
    | halted => rfl
    | failed f =>
        exfalso
        obtain ⟨j, -, hrunning, hstep⟩ :=
          exists_failing_step (start_not_failed code options source sink) hs
        obtain ⟨hadvancing, -⟩ := advancing_of_running hcode honly hrunning
        rw [← hstep] at hs htape
        exact hadvancing.not_failed hcode honly hrunning (room_of_run hroom j) htape f hs
  · rw [hsteps, UInt64.toNat_ofNat']
    exact Nat.le_trans (Nat.mod_le _ _) hle

/-- The program `++W+W..>.` halts after thirteen steps, some of them between its two `W`s again. -/
theorem waiting_program_halts_after_redirects :
    let first := start [0x2B, 0x2B, 0x57, 0x2B, 0x57, 0x2E, 0x2E, 0x3E, 0x2E] {} {} {}
    (stepMany 13 first).status = .halted ∧
      ∃ k ≤ 31, (∀ j < k, (stepMany j first).status = .running) ∧
        (stepMany k first).status ≠ .running ∧
        (FitsWord (stepMany k first).tape.size → (stepMany k first).status = .halted) ∧
        (stepMany k first).steps = UInt64.ofNat k ∧ (stepMany k first).steps.toNat ≤ 31 :=
  ⟨by decide +kernel,
    waiting_program_halts [0x2B, 0x2B, 0x57, 0x2B, 0x57, 0x2E, 0x2E, 0x3E, 0x2E] {} {} {}
      ⟨by decide, by decide, by decide, by decide⟩ rfl (by decide)⟩

end Machine

end TimeTape
