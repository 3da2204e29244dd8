/-
How far the numbers of a machine can go.

While a machine runs, its pointer and the targets of its redirects are places of the program, so
one byte takes them no farther than one leap beyond it: 255 places at most, and one more when the
pointer moves on.  The countdowns are set from a cell and only ever decreased or set to the period,
and the memory pointer moves by one cell in a step.  `Bounded` collects these bounds.  They hold of
every machine that a run reaches, those that have stopped included, as long as the program and the
number of steps leave room for a leap within the words.

The tape has no cell that the memory pointer has not come to: its last cell is the farthest that
the run has had under the pointer.  A step adds one redirect at most, so no more of them are pending
than steps have been taken.
-/
import TimeTape.Proofs.Failures
import TimeTape.Proofs.Limits
import Mathlib.Order.Bounds.Basic

namespace TimeTape

/-- Whether a program or a run is short enough to leave room for every sum: less than 2⁶². -/
def Roomy (n : Nat) : Prop :=
  n < 4611686018427387904

theorem Direction.delta_bounds (d : Direction) : -1 ≤ d.delta ∧ d.delta ≤ 1 := by
  cases d <;> decide

/-! ### Redirects -/

namespace Redirect

/-- What `W` and `P` make of the countdown and the period of a redirect, and ticks leave of it. -/
structure Timed (r : Redirect) : Prop where
  countdown_nonneg : 0 ≤ r.countdown
  countdown_le : r.countdown ≤ r.period + 1
  period_le : r.period ≤ 255
  period_nonneg : r.recurring = true → 0 ≤ r.period

theorem Timed.fits {r : Redirect} (h : r.Timed) : FitsWord (r.countdown - 1) := by
  obtain ⟨hlo, hhi, hperiod, -⟩ := h
  exact ⟨by omega, by omega⟩

theorem timed_wait (n : UInt8) (target : Int) : (after n.toNat target false).Timed := by
  have hn : n.toNat < 256 := n.toNat_lt
  have hperiod : (after n.toNat target false).period = n.toNat - 1 :=
    wrap_of_fits ⟨by omega, by omega⟩
  refine ⟨Int.natCast_nonneg _, ?_, by omega, by simp [after]⟩
  show (n.toNat : Int) ≤ _
  omega

theorem timed_persist (n : UInt8) (target : Int) : (after (n.toNat + 1) target true).Timed := by
  have hn : n.toNat < 256 := n.toNat_lt
  have hperiod : (after (n.toNat + 1) target true).period = n.toNat + 1 - 1 :=
    wrap_of_fits ⟨by omega, by omega⟩
  refine ⟨?_, ?_, by omega, fun _ => by omega⟩
  · show (0 : Int) ≤ n.toNat + 1
    omega
  · show (n.toNat + 1 : Int) ≤ _
    omega

end Redirect

theorem Schedule.tick_timed {s : Schedule} (h : ∀ r ∈ s, r.Timed) (ip : Int) :
    ∀ r ∈ (s.tick ip).1, r.Timed := by
  cases s with
  | nil => exact h
  | cons top below =>
      obtain ⟨htop, hbelow⟩ := List.forall_mem_cons.mp h
      have hleft := wrap_of_fits htop.fits
      obtain ⟨hlo, hhi, hperiod, hrecurring⟩ := htop
      simp only [Schedule.tick, Arithmetic.wrapping_reduce, hleft]
      split
      · exact List.forall_mem_cons.mpr ⟨⟨by simp only; omega, by simp only; omega, hperiod,
          hrecurring⟩, hbelow⟩
      · split
        · rename_i hagain
          have hpos := hrecurring hagain
          refine List.forall_mem_cons.mpr ⟨⟨hpos, ?_, hperiod, fun _ => hpos⟩, hbelow⟩
          show top.period ≤ top.period + 1
          omega
        · exact hbelow

/-- A tick adds nothing to a schedule. -/
theorem Schedule.length_tick_le (s : Schedule) (ip : Int) : (s.tick ip).1.length ≤ s.length := by
  cases s with
  | nil => exact Nat.le_refl 0
  | cons top below =>
      simp only [Schedule.tick]
      split
      · exact Nat.le_refl _
      · split
        · exact Nat.le_refl _
        · exact Nat.le_succ _

namespace Machine

variable {code : Bytes} {m m' : Machine} {g : UInt8}

theorem skipTicks_timed (h : ∀ r ∈ m.schedule, r.Timed) (n : Nat) :
    ∀ r ∈ (skipTicks n m).schedule, r.Timed := by
  refine skipTicks_induction n (P := fun m => ∀ r ∈ m.schedule, r.Timed) ?_ h
  intro m h
  rw [tick_schedule]
  exact Schedule.tick_timed h m.ip

theorem poised_timed (h : ∀ r ∈ m.schedule, r.Timed) : ∀ r ∈ m.poised.schedule, r.Timed := by
  rw [poised_schedule]
  exact Schedule.tick_timed h m.ip

/-! ### Places within one leap -/

/-- Whether an index is no farther than one leap from a place of the program. -/
structure Near (code : Bytes) (i : Int) : Prop where
  ge : -255 ≤ i
  le : i ≤ code.length + 254

theorem near_of_inside {i : Int} (hlo : 0 ≤ i) (hlt : i < code.length) : Near code i :=
  ⟨by omega, by omega⟩

theorem near_of_place {i : Int} (h : Place code i) : Near code i :=
  near_of_inside h.nonneg h.lt

/-- A leap from a place of the program is computed exactly, and is no farther than a leap. -/
theorem near_of_leap (hcode : Roomy code.length) {i : Int} (h : Place code i) (d : Direction)
    {n : Nat} (hn : n < 256) :
    FitsWord (i + n * d.delta) ∧ Near code (i + n * d.delta) := by
  obtain ⟨hlo, hlt, -⟩ := h
  unfold Roomy at hcode
  cases d with
  | forward =>
      simp only [Direction.delta, Int.mul_one]
      exact ⟨⟨by omega, by omega⟩, by omega, by omega⟩
  | reverse =>
      have hneg : (n : Int) * -1 = -n := by omega
      simp only [Direction.delta, hneg]
      exact ⟨⟨by omega, by omega⟩, by omega, by omega⟩

/-- So is a step from there. -/
theorem fits_of_near (hcode : Roomy code.length) {i : Int} (h : Near code i) (d : Direction) :
    FitsWord (i + d.delta) ∧ -256 ≤ i + d.delta ∧ i + d.delta ≤ code.length + 255 := by
  obtain ⟨hge, hle⟩ := h
  obtain ⟨hlo, hhi⟩ := d.delta_bounds
  unfold Roomy at hcode
  exact ⟨⟨by omega, by omega⟩, by omega, by omega⟩

theorem near_leap (hcode : Roomy code.length) (h : Place code m.ip) (n : UInt8) :
    Near code (wrap (m.ip + m.stride n)) := by
  obtain ⟨hfits, hnear⟩ := near_of_leap hcode h m.direction n.toNat_lt
  rw [← stride_eq] at hfits hnear
  rw [wrap_of_fits hfits]
  exact hnear

theorem near_on (hcode : Roomy code.length) (h : Place code m.ip) :
    Near code (wrap (m.ip + m.direction.delta)) := by
  obtain ⟨hfits, hnear⟩ := near_of_leap hcode h m.direction (show 1 < 256 by omega)
  rw [Int.natCast_one, Int.one_mul] at hfits hnear
  rw [wrap_of_fits hfits]
  exact hnear

/-! ### What executing a byte does to the numbers -/

/-- A byte leaves the pointer within one leap of the program. -/
theorem Inside.execute_near (hcode : Roomy code.length) (h : Inside code m)
    {fault? : Option Fault} (hexec : m.execute g = (m', fault?)) : Near code m'.ip := by
  have hip := near_of_place h.pointer
  cases effect_of_eq h.cell hexec with
  | comment _ | read _ _ _ _ _ | unread _ _ _ _ _ => simpa using hip
  | erase _ =>
      split
      · exact near_of_place (h.skipTicks _).pointer
      · exact hip
  | leap _ | persist _ => exact near_leap hcode h.pointer m.cell
  | follow b bracket _ _ target lookup =>
      obtain ⟨hlo, hlt⟩ := h.partner_inside bracket lookup
      exact near_of_inside hlo hlt
  | _ => exact hip

/-- The redirects that a byte leaves are timed, and aim no farther than one leap. -/
theorem Inside.execute_redirects (hcode : Roomy code.length) (h : Inside code m)
    (htimed : ∀ r ∈ m.schedule, r.Timed) {fault? : Option Fault}
    (hexec : m.execute g = (m', fault?)) :
    ∀ r ∈ m'.schedule, r.Timed ∧ Near code r.target := by
  have hkept : ∀ r ∈ m.schedule, r.Timed ∧ Near code r.target :=
    fun r hr => ⟨htimed r hr, near_of_place (h.targets r hr)⟩
  cases effect_of_eq h.cell hexec with
  | comment _ | follow _ _ _ _ _ _ | read _ _ _ _ _ | unread _ _ _ _ _ => simpa using hkept
  | erase _ =>
      have hskip : ∀ r ∈ (Machine.skipTicks m.cell.toNat m).schedule,
          r.Timed ∧ Near code r.target :=
        fun r hr => ⟨skipTicks_timed htimed _ r hr, near_of_place ((h.skipTicks _).targets r hr)⟩
      split
      · exact hskip
      · exact hskip
  | wait _ =>
      refine List.forall_mem_cons.mpr ⟨⟨Redirect.timed_wait m.cell _, ?_⟩, hkept⟩
      exact near_on hcode h.pointer
  | persist _ =>
      refine List.forall_mem_cons.mpr ⟨⟨Redirect.timed_persist m.cell _, ?_⟩, hkept⟩
      exact near_leap hcode h.pointer m.cell
  | _ => exact hkept

theorem skipTicks_pending (n : Nat) :
    (skipTicks n m).schedule.length ≤ m.schedule.length := by
  refine skipTicks_induction n (P := fun m' => m'.schedule.length ≤ m.schedule.length) ?_
    (Nat.le_refl _)
  intro m' h
  rw [tick_schedule]
  exact Nat.le_trans (Schedule.length_tick_le _ _) h

/-- A byte adds one redirect at most. -/
theorem execute_pending (hm : m.OnTape) {fault? : Option Fault}
    (hexec : m.execute g = (m', fault?)) : m'.schedule.length ≤ m.schedule.length + 1 := by
  have hkept : m.schedule.length ≤ m.schedule.length + 1 := Nat.le_succ _
  cases effect_of_eq hm hexec with
  | comment _ | follow _ _ _ _ _ _ | read _ _ _ _ _ | unread _ _ _ _ _ => simp
  | erase _ => split <;> exact Nat.le_trans (skipTicks_pending _) hkept
  | wait _ | persist _ => exact Nat.le_refl _
  | _ => exact hkept

/--
What executing a byte does to the memory pointer and the size of the tape, whether it succeeds or
not.
-/
structure Stretch (m m' : Machine) (fault? : Option Fault) : Prop where
  mp : m'.mp = m.mp ∨ m'.mp = wrap (m.mp + m.direction.delta)
  size : (m'.tape.size : Int) = max (m.tape.size : Int) (m'.mp + 1)
  failed : m'.mp < 0 → fault? ≠ none

/-- A tape that has the pointer on it is as long as it has to be. -/
theorem stretch_of_keep (hm : m.OnTape) (hmp : m'.mp = m.mp)
    (hsize : m'.tape.size = m.tape.size) (fault? : Option Fault) : Stretch m m' fault? := by
  obtain ⟨hlo, hhi⟩ := hm
  exact ⟨Or.inl hmp, by omega, by omega⟩

theorem stretch_of_execute (hm : m.OnTape) {fault? : Option Fault}
    (hexec : m.execute g = (m', fault?)) : Stretch m m' fault? := by
  cases effect_of_eq hm hexec with
  | comment _ | follow _ _ _ _ _ _ | unread _ _ _ _ _ =>
      exact stretch_of_keep hm (by simp) (by simp) _
  | erase _ => split <;> exact stretch_of_keep hm (by simp) (by simp) _
  | read _ _ _ _ _ => exact stretch_of_keep hm (by simp) (by simp [Tape.size]) _
  | add _ => exact stretch_of_keep hm (by rfl) (by simp [Tape.size]) _
  | move _ nonneg =>
      refine ⟨Or.inr rfl, ?_, ?_⟩
      · simp only [Tape.size_extend]
        omega
      · intro hneg
        simp only at hneg
        omega
  | below _ negative =>
      refine ⟨Or.inr rfl, ?_, by simp⟩
      obtain ⟨hlo, hhi⟩ := hm
      simp only
      omega
  | _ => exact stretch_of_keep hm (by rfl) (by rfl) _

/-! ### The numbers of a run -/

/-- The bounds that the numbers of a machine keep that a run of the program has reached. -/
structure Bounded (code : Bytes) (m : Machine) : Prop where
  ip_ge : -256 ≤ m.ip
  ip_le : m.ip ≤ code.length + 255
  redirects : ∀ r ∈ m.schedule, r.Timed ∧ Near code r.target
  mp_ge : -1 ≤ m.mp
  mp_le : m.mp ≤ m.steps.toNat
  failed : m.mp = -1 → m.failure? ≠ none
  pending : m.schedule.length ≤ m.steps.toNat

theorem Bounded.timed (h : Bounded code m) : ∀ r ∈ m.schedule, r.Timed :=
  fun r hr => (h.redirects r hr).1

/-- A step leaves the memory as its byte has, and has failed if the byte has. -/
theorem Inside.stretch_step (h : Inside code m) (hrunning : m.status = .running) :
    ∃ fault?, Stretch m m.step fault? ∧ (fault? ≠ none → m.step.failure? ≠ none) := by
  rw [step_of_running hrunning]
  cases hexec : m.poised.execute m.dispatched with
  | mk m' fault? =>
      obtain ⟨hmp, hsize, hfailed⟩ := stretch_of_execute h.poised.cell hexec
      rw [poised_mp, poised_direction] at hmp
      rw [poised_tape] at hsize
      refine ⟨fault?, ?_⟩
      cases fault? with
      | some fault => exact ⟨⟨hmp, hsize, hfailed⟩, by simp [fail, failure?]⟩
      | none =>
          obtain ⟨status, hmove⟩ := exists_moveOn m'
          simp only [goOn_done, hmove]
          exact ⟨⟨hmp, hsize, hfailed⟩, by simp⟩

/-- A step leaves the pointer and the redirects in bounds. -/
theorem Inside.near_step (hcode : Roomy code.length) (h : Inside code m)
    (htimed : ∀ r ∈ m.schedule, r.Timed) (hrunning : m.status = .running) :
    (-256 ≤ m.step.ip ∧ m.step.ip ≤ code.length + 255) ∧
      ∀ r ∈ m.step.schedule, r.Timed ∧ Near code r.target := by
  rw [step_of_running hrunning]
  cases hexec : m.poised.execute m.dispatched with
  | mk m' fault? =>
      have hredirects := h.poised.execute_redirects hcode (poised_timed htimed) hexec
      have hnear := h.poised.execute_near hcode hexec
      cases fault? with
      | some fault =>
          obtain ⟨hge, hle⟩ := hnear
          refine ⟨?_, hredirects⟩
          show -256 ≤ m'.ip ∧ m'.ip ≤ _
          omega
      | none =>
          obtain ⟨status, hmove⟩ := exists_moveOn m'
          obtain ⟨hfits, hge, hle⟩ := fits_of_near hcode hnear m'.direction
          simp only [goOn_done, hmove]
          refine ⟨?_, hredirects⟩
          rw [next, wrap_of_fits hfits]
          exact ⟨hge, hle⟩

theorem Inside.count_step (h : Inside code m) (hrunning : m.status = .running)
    (hsteps : Roomy m.steps.toNat) : m.step.steps.toNat = m.steps.toNat + 1 := by
  unfold Roomy at hsteps
  rw [step_steps h.cell hrunning, UInt64.toNat_add, UInt64.toNat_one,
    Nat.mod_eq_of_lt (by omega)]

/-- The memory pointer moves by one cell at most, and below the first cell only in a failure. -/
theorem Inside.mp_step (h : Inside code m) (hrunning : m.status = .running)
    (hle : m.mp ≤ m.steps.toNat) (hsteps : Roomy m.steps.toNat) :
    -1 ≤ m.step.mp ∧ m.step.mp ≤ m.step.steps.toNat ∧
      (m.step.mp = -1 → m.step.failure? ≠ none) := by
  obtain ⟨fault?, ⟨hmp, -, hneg⟩, hfailed⟩ := h.stretch_step hrunning
  obtain ⟨hlo, -⟩ := h.cell
  obtain ⟨hdlo, hdhi⟩ := m.direction.delta_bounds
  have hcount := h.count_step hrunning hsteps
  unfold Roomy at hsteps
  rw [wrap_of_fits ⟨by omega, by omega⟩] at hmp
  exact ⟨by omega, by omega, fun heq => hfailed (hneg (by omega))⟩

theorem Inside.pending_step (h : Inside code m) (hrunning : m.status = .running) :
    m.step.schedule.length ≤ m.schedule.length + 1 := by
  obtain ⟨m', fault?, ip, status, hexec, hstep⟩ := exists_execute_of_step hrunning
  have hbyte := execute_pending h.poised.cell hexec
  have htick := Schedule.length_tick_le m.schedule m.ip
  rw [poised_schedule] at hbyte
  rw [hstep]
  exact Nat.le_trans hbyte (Nat.succ_le_succ htick)

theorem Bounded.step (hcode : Roomy code.length) (hreached : Reached code m)
    (h : Bounded code m) (hsteps : Roomy m.steps.toNat) : Bounded code m.step := by
  by_cases hrunning : m.status = .running
  · have hin := hreached.running hrunning
    obtain ⟨⟨hge, hle⟩, hredirects⟩ := hin.near_step hcode h.timed hrunning
    obtain ⟨hmp, hmp', hfailed⟩ := hin.mp_step hrunning h.mp_le hsteps
    have hpending := hin.pending_step hrunning
    have hbefore := h.pending
    have hcount := hin.count_step hrunning hsteps
    exact ⟨hge, hle, hredirects, hmp, hmp', hfailed, by omega⟩
  · rw [step_of_stopped hrunning]
    exact h

/-- A step stretches the tape as far as the memory pointer goes. -/
theorem Reached.size_step (h : Reached code m) (hmp : m.mp < m.tape.size) :
    (m.step.tape.size : Int) = max (m.tape.size : Int) (m.step.mp + 1) := by
  by_cases hrunning : m.status = .running
  · obtain ⟨fault?, hstretch, -⟩ := (h.running hrunning).stretch_step hrunning
    exact hstretch.size
  · rw [step_of_stopped hrunning]
    omega

section Run

variable {options : Options} {source : Source} {sink : Sink}

theorem steps_le (n : Nat) : (stepMany n (start code options source sink)).steps.toNat ≤ n := by
  induction n with
  | zero => simp [stepMany, start]
  | succ n ih =>
      rw [stepMany_succ, (reached code options source sink n).steps_step]
      split
      · rw [UInt64.toNat_add, UInt64.toNat_one]
        exact Nat.le_trans (Nat.mod_le _ _) (Nat.succ_le_succ ih)
      · exact Nat.le_succ_of_le ih

theorem bounded (hcode : Roomy code.length) {n : Nat} (hn : Roomy n) :
    Bounded code (stepMany n (start code options source sink)) := by
  induction n with
  | zero =>
      have hfirst : stepMany 0 (start code options source sink) = start code options source sink :=
        rfl
      rw [hfirst]
      constructor <;> simp [start]
      omega
  | succ n ih =>
      unfold Roomy at hn
      rw [stepMany_succ]
      refine (ih (show n < _ by omega)).step hcode (reached code options source sink n) ?_
      exact Nat.lt_of_le_of_lt (steps_le n) (by omega)

/-- The last cell of the tape is the farthest that the run has had under its memory pointer. -/
theorem size_isGreatest (n : Nat) :
    IsGreatest {p : Int | ∃ j ≤ n, p = (stepMany j (start code options source sink)).mp}
      ((stepMany n (start code options source sink)).tape.size - 1) := by
  induction n with
  | zero =>
      refine ⟨⟨0, Nat.le_refl 0, by simp [stepMany, start, Tape.blank, Tape.size]⟩, ?_⟩
      rintro p ⟨j, hj, rfl⟩
      obtain rfl : j = 0 := by omega
      simp [stepMany, start, Tape.blank, Tape.size]
  | succ n ih =>
      obtain ⟨⟨far, hfar, hlast⟩, hall⟩ := ih
      have hmp := hall ⟨n, Nat.le_refl n, rfl⟩
      have hgrows := (reached code options source sink n).size_step (by omega)
      rw [← stepMany_succ] at hgrows
      constructor
      · by_cases hfarther : (stepMany n (start code options source sink)).tape.size
            ≤ (stepMany (n + 1) (start code options source sink)).mp
        · exact ⟨n + 1, Nat.le_refl _, by omega⟩
        · exact ⟨far, Nat.le_succ_of_le hfar, by omega⟩
      · rintro p ⟨j, hj, rfl⟩
        by_cases hjn : j ≤ n
        · have hbefore := hall ⟨j, hjn, rfl⟩
          omega
        · obtain rfl : j = n + 1 := by omega
          omega

end Run

end Machine

end TimeTape
