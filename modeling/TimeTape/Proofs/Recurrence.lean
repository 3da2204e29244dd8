/-
What a recurring redirect does to a run.

Only the top of a schedule counts down, and a recurring redirect is put back whenever it is due.
So it never leaves its place, and what lies under it never comes to the top again.  `Pinned` says
that of a schedule.  Ticks and pushes keep it, and a step does nothing else to a schedule, however
many ticks it erases.

The second half is about the redirect that `P` makes of a zero cell.  It counts down from one and
its period is zero, so the next tick calls the pointer back to the `P`.  That `P` is executed again
and buries what has just been put back under a new redirect of the same kind, and so on for ever.
The schedule grows with every step; what carries the induction is that its top is always the same.
-/
import TimeTape.Proofs.Pointers

namespace TimeTape

namespace Schedule

variable {below s : Schedule} {period : Int}

/-- The redirects `below` lie under a recurring one with the given period. -/
def Pinned (below : Schedule) (period : Int) (s : Schedule) : Prop :=
  ∃ above pin, s = above ++ pin :: below ∧ pin.recurring = true ∧ pin.period = period

namespace Pinned

theorem push (h : Pinned below period s) (r : Redirect) : Pinned below period (r :: s) := by
  obtain ⟨above, pin, rfl, hpin⟩ := h
  exact ⟨r :: above, pin, rfl, hpin⟩

theorem tick (h : Pinned below period s) (ip : Int) : Pinned below period (s.tick ip).1 := by
  obtain ⟨above, pin, rfl, hrecurring, hperiod⟩ := h
  cases above with
  | nil =>
      -- The pin counts down itself.  When it is due it is put back with its period.
      simp only [List.nil_append, Schedule.tick]
      split
      · exact ⟨[], { pin with countdown := wrap (pin.countdown - 1) }, rfl, hrecurring, hperiod⟩
      · exact ⟨[], pin.again ip, rfl, rfl, hperiod⟩
  | cons top above =>
      simp only [List.cons_append, Schedule.tick]
      split
      · exact ⟨{ top with countdown := wrap (top.countdown - 1) } :: above, pin, rfl, hrecurring,
          hperiod⟩
      · split
        · exact ⟨top.again ip :: above, pin, rfl, hrecurring, hperiod⟩
        · exact ⟨above, pin, rfl, hrecurring, hperiod⟩

end Pinned

/--
Seen from the bottom, `s` begins like `base` up to place `k`, and has a recurring redirect with
the given period there.
-/
structure FrozenUpTo (base : Schedule) (k : Nat) (period : Int) (s : Schedule) : Prop where
  below : s.reverse.take k = base.reverse.take k
  pin : ∃ r, s.reverse[k]? = some r ∧ r.recurring = true ∧ r.period = period
  deeper : k < s.length

theorem Pinned.frozenUpTo {base : Schedule} (hbase : base.reverse.take below.length = below.reverse)
    (h : Pinned below period s) : FrozenUpTo base below.length period s := by
  obtain ⟨above, pin, rfl, hpin⟩ := h
  have hreverse : (above ++ pin :: below).reverse = below.reverse ++ pin :: above.reverse := by
    simp
  refine ⟨?_, ⟨pin, ?_, hpin⟩, ?_⟩
  · rw [hbase, hreverse, ← List.length_reverse, List.take_left]
  · rw [hreverse, ← List.length_reverse, List.getElem?_append_right (Nat.le_refl _), Nat.sub_self]
    rfl
  · rw [List.length_append, List.length_cons]
    omega

/-- A recurring redirect pins the `k` redirects that it has under it. -/
theorem exists_pinned {k : Nat} {r : Redirect} (h : s.reverse[k]? = some r)
    (hr : r.recurring = true) :
    ∃ below, below.length = k ∧ s.reverse.take k = below.reverse ∧ Pinned below r.period s := by
  obtain ⟨hlt, hget⟩ := List.getElem?_eq_some_iff.mp h
  refine ⟨(s.reverse.take k).reverse, ?_, by rw [List.reverse_reverse], ?_⟩
  · rw [List.length_reverse, List.length_take]
    omega
  · refine ⟨(s.reverse.drop (k + 1)).reverse, r, ?_, hr, rfl⟩
    have hsplit : s.reverse = s.reverse.take k ++ r :: s.reverse.drop (k + 1) := by
      rw [← hget, ← List.drop_eq_getElem_cons hlt, List.take_append_drop]
    calc s = s.reverse.reverse := s.reverse_reverse.symm
      _ = (s.reverse.take k ++ r :: s.reverse.drop (k + 1)).reverse := by rw [← hsplit]
      _ = (s.reverse.drop (k + 1)).reverse ++ r :: (s.reverse.take k).reverse := by simp

end Schedule

namespace Machine

variable {code : Bytes} {m m' : Machine} {g : UInt8}

/-! ### What ticks and pushes keep -/

section Keeps

variable {P : Schedule → Prop} (htick : ∀ s ip, P s → P (s.tick ip).1)
  (hpush : ∀ s r, P s → P (r :: s))

include htick

theorem skipTicks_schedule (h : P m.schedule) (n : Nat) : P (skipTicks n m).schedule := by
  refine skipTicks_induction n (P := fun m => P m.schedule) ?_ h
  intro m h
  rw [tick_schedule]
  exact htick _ _ h

theorem poised_keeps (h : P m.schedule) : P m.poised.schedule := by
  rw [poised_schedule]
  exact htick _ _ h

include hpush

theorem execute_keeps (hm : m.OnTape) {fault? : Option Fault} (hexec : m.execute g = (m', fault?))
    (h : P m.schedule) : P m'.schedule := by
  cases effect_of_eq hm hexec with
  | comment _ | follow _ _ _ _ _ _ | read _ _ _ _ _ | unread _ _ _ _ _ => simpa using h
  | erase _ =>
      have hskip := skipTicks_schedule htick h m.cell.toNat
      split
      · exact hskip
      · exact hskip
  | wait _ | persist _ => exact hpush _ _ h
  | _ => exact h

/-- What every tick and every push keeps is kept by every step. -/
theorem step_keeps (hreached : Reached code m) (h : P m.schedule) : P m.step.schedule := by
  by_cases hrunning : m.status = .running
  · have hcell := (hreached.running hrunning).poised.cell
    obtain ⟨m', fault?, ip, status, hexec, hstep⟩ := exists_execute_of_step hrunning
    have hkept := execute_keeps htick hpush hcell hexec (poised_keeps htick h)
    rw [hstep]
    exact hkept
  · rw [step_of_stopped hrunning]
    exact h

end Keeps

/--
**A recurring redirect stays, and what lies under it is frozen.**  Places are counted from the
bottom.  Once a recurring redirect is at place `k`, the `k` redirects under it stay as they are and
place `k` keeps a recurring redirect of the same period, in every later state, and in the midst of
its next step too, after the tick and however many ticks are erased.  So whenever the top counts
down it is at place `k` or above, and nothing under place `k` is ever due.
-/
theorem recurring_redirect_stays (code : Bytes) (options : Options) (source : Source) (sink : Sink)
    (n k : Nat) (r : Redirect) :
    let m := stepMany n (start code options source sink)
    m.schedule.reverse[k]? = some r → r.recurring = true →
      ∀ later, m.schedule.FrozenUpTo k r.period (stepMany later m).schedule ∧
        ∀ erased, m.schedule.FrozenUpTo k r.period
          (skipTicks erased (stepMany later m).poised).schedule := by
  intro m hr hrecurring later
  obtain ⟨below, rfl, hbelow, hpinned⟩ := Schedule.exists_pinned hr hrecurring
  have htick : ∀ (s : Schedule) ip, below.Pinned r.period s → below.Pinned r.period (s.tick ip).1 :=
    fun _ ip h => h.tick ip
  have hlater : Reached code (stepMany later m) ∧
      below.Pinned r.period (stepMany later m).schedule := by
    refine stepMany_induction
      (P := fun m => Reached code m ∧ below.Pinned r.period m.schedule)
      ?_ ⟨reached code options source sink n, hpinned⟩ later
    rintro m ⟨hreached, h⟩
    exact ⟨hreached.step, step_keeps htick (fun _ r h => h.push r) hreached h⟩
  refine ⟨hlater.2.frozenUpTo hbelow, ?_⟩
  intro erased
  have hpoised := poised_keeps htick hlater.2
  exact (skipTicks_schedule htick hpoised erased).frozenUpTo hbelow

/--
In `+++WP...E.`, after five steps a recurring redirect lies on top of one that happens once.  The
next step erases three ticks.
-/
theorem recurring_redirect_stays_over_wait :
    let m := stepMany 5
      (start [0x2B, 0x2B, 0x2B, 0x57, 0x50, 0x2E, 0x2E, 0x2E, 0x45, 0x2E] {} {} {})
    m.schedule.reverse = [⟨2, 4, false, 2⟩, ⟨4, 7, true, 3⟩] ∧
      ∀ later, m.schedule.FrozenUpTo 1 3 (stepMany later m).schedule ∧
        ∀ erased, m.schedule.FrozenUpTo 1 3 (skipTicks erased (stepMany later m).poised).schedule :=
  ⟨by decide,
    recurring_redirect_stays [0x2B, 0x2B, 0x2B, 0x57, 0x50, 0x2E, 0x2E, 0x2E, 0x45, 0x2E] {} {} {} 5
      1 ⟨4, 7, true, 3⟩ (by decide) rfl⟩

/-! ### `P` on a zero cell -/

theorem moveOn_of_inside (hlo : 0 ≤ m.next) (hhi : m.next < m.image.size) :
    m.moveOn = { m with ip := m.next } := by
  have harrival := arrival_of_moveOn m
  generalize m.moveOn = m' at harrival ⊢
  cases harrival with
  | inside lo hi => rfl
  | exit past => exact absurd ⟨hlo, hhi⟩ past.outside
  | beforeStart direction negative => omega
  | pastEnd direction past => omega

/-- The next step executes a `P` on a zero cell. -/
structure AtPersist (m : Machine) : Prop where
  status : m.status = .running
  glyph : m.dispatched = Instruction.persist.glyph
  cell : m.cell = 0
  onTape : m.OnTape
  fits : FitsWord m.poised.ip

/-- The machine after a `P` on a zero cell, before it moves on: the pointer has stayed. -/
def armed (m : Machine) : Machine :=
  { m.poised with schedule := Redirect.after 1 m.poised.ip true :: m.poised.schedule }

theorem AtPersist.execute (h : m.AtPersist) : m.poised.execute m.dispatched = (m.armed, none) := by
  have hcell : m.poised.OnTape := by simpa [OnTape] using h.onTape
  have hstay : wrap (m.poised.ip + m.poised.stride 0) = m.poised.ip := by
    rw [stride_eq]
    simp [wrap_of_fits h.fits]
  rw [h.glyph, execute_persist hcell, poised_cell, h.cell, hstay]
  rfl

theorem AtPersist.step_eq (h : m.AtPersist) : m.step = m.armed.moveOn := by
  rw [step_of_running h.status, h.execute, goOn_done]

/-- What a machine leaves alone while it executes `P` on a zero cell. -/
structure Idles (m m' : Machine) : Prop where
  direction : m'.direction = m.direction
  mp : m'.mp = m.mp
  tape : m'.tape = m.tape
  sink : m'.sink = m.sink

theorem Idles.trans {a b c : Machine} (hab : a.Idles b) (hbc : b.Idles c) : a.Idles c :=
  ⟨hbc.direction.trans hab.direction, hbc.mp.trans hab.mp, hbc.tape.trans hab.tape,
    hbc.sink.trans hab.sink⟩

/--
The machine is caught in the `P` at index `i`: it stands behind it on a zero cell, and the top of
its schedule is about to call it back.
-/
structure Caught (i : Int) (m : Machine) : Prop where
  status : m.status = .running
  behind : m.ip = wrap (i + m.direction.delta)
  inside : 0 ≤ m.ip ∧ m.ip < m.image.size
  due : ∃ rest, m.schedule = Redirect.after 1 i true :: rest
  glyph : m.image.glyphAt i = Instruction.persist.glyph
  cell : m.cell = 0
  onTape : m.OnTape
  fits : FitsWord i

/-- A `P` on a zero cell catches the machine, provided that the pointer stays in the program. -/
theorem AtPersist.caught (h : m.AtPersist) (hlo : 0 ≤ m.armed.next)
    (hhi : m.armed.next < m.image.size) :
    Caught m.poised.ip m.step ∧ m.Idles m.step ∧
      m.step.schedule.length = m.poised.schedule.length + 1 := by
  have himage : m.armed.image = m.image := m.poised_image
  have hstep : m.step = { m.armed with ip := m.armed.next } := by
    rw [h.step_eq, moveOn_of_inside hlo (himage ▸ hhi)]
  rw [hstep]
  refine ⟨⟨?_, rfl, ⟨hlo, ?_⟩, ⟨m.poised.schedule, rfl⟩, ?_, ?_, ?_, h.fits⟩, ?_, rfl⟩
  · show m.poised.status = .running
    rw [poised_status, h.status]
  · show m.armed.next < m.armed.image.size
    rw [himage]
    exact hhi
  · show m.armed.image.glyphAt m.poised.ip = _
    rw [himage, ← dispatched_eq, h.glyph]
  · show m.poised.cell = 0
    rw [poised_cell, h.cell]
  · show m.poised.OnTape
    simpa [OnTape] using h.onTape
  · exact ⟨m.poised_direction, m.poised_mp, m.poised_tape, m.poised_sink⟩

namespace Caught

variable {i : Int}

/-- The redirect is due at the next tick, and is put back. -/
theorem tick_eq (h : Caught i m) :
    ∃ top rest, m.schedule.tick m.ip = (top :: rest, some i) ∧
      m.schedule.length = rest.length + 1 := by
  obtain ⟨rest, hrest⟩ := h.due
  refine ⟨(Redirect.after 1 i true).again m.ip, rest, ?_, by rw [hrest, List.length_cons]⟩
  rw [hrest]
  rfl

theorem poised_ip_eq (h : Caught i m) : m.poised.ip = i := by
  obtain ⟨top, rest, htick, -⟩ := h.tick_eq
  rw [poised_ip, htick]
  rfl

theorem poised_length (h : Caught i m) : m.poised.schedule.length = m.schedule.length := by
  obtain ⟨top, rest, htick, hlength⟩ := h.tick_eq
  rw [poised_schedule, htick, hlength, List.length_cons]

theorem atPersist (h : Caught i m) : m.AtPersist := by
  refine ⟨h.status, ?_, h.cell, h.onTape, ?_⟩
  · rw [dispatched_eq, h.poised_ip_eq]
    exact h.glyph
  · rw [h.poised_ip_eq]
    exact h.fits

/-- A machine that is caught stays caught, and its schedule grows by one. -/
theorem step (h : Caught i m) :
    Caught i m.step ∧ m.Idles m.step ∧ m.step.schedule.length = m.schedule.length + 1 := by
  have hnext : m.armed.next = m.ip := by
    rw [h.behind, ← m.poised_direction, ← h.poised_ip_eq]
    rfl
  have hcaught := h.atPersist.caught (by rw [hnext]; exact h.inside.1) (by rw [hnext]; exact h.inside.2)
  rw [h.poised_ip_eq, h.poised_length] at hcaught
  exact hcaught

theorem later (h : Caught i m) (k : Nat) :
    Caught i (stepMany k m) ∧ m.Idles (stepMany k m) := by
  refine stepMany_induction (P := fun m' => Caught i m' ∧ m.Idles m') ?_
    ⟨h, rfl, rfl, rfl, rfl⟩ k
  rintro m' ⟨hcaught, hidles⟩
  obtain ⟨hcaught', hidles', -⟩ := hcaught.step
  exact ⟨hcaught', hidles.trans hidles'⟩

/-- The place behind the `P` does not lie beyond the greatest word. -/
theorem ip_eq (h : Caught i m) (hi : 0 ≤ i) : m.ip = i + m.direction.delta := by
  have hlo := h.inside.1
  rw [h.behind] at hlo ⊢
  exact move_exact hi h.fits hlo

end Caught

theorem Inside.atPersist (h : Inside code m) (hrunning : m.status = .running)
    (hglyph : m.dispatched = Instruction.persist.glyph) (hcell : m.cell = 0) : m.AtPersist :=
  ⟨hrunning, hglyph, hcell, h.cell, h.poised.pointer.fits⟩

/--
**`P` on a zero cell never halts, unless it is the last instruction in the direction of travel.**
Let a run be about to execute a `P` at index `i` on a zero cell.  If the machine runs on after that
step, then the next index is in the program, and every later step succeeds and is like the ones
before it: it is redirected to `i`, executes the `P` again, and leaves everything as it was, but the
schedule one deeper.  In a program whose length is a word, the machine does run on if the next index
is in the program.
-/
theorem persist_on_zero_never_halts (code : Bytes) (options : Options) (source : Source)
    (sink : Sink) (n : Nat) :
    let m := stepMany n (start code options source sink)
    let i := m.poised.ip
    let behind := i + m.direction.delta
    m.status = .running → m.dispatched = Instruction.persist.glyph → m.cell = 0 →
      (FitsWord code.length → 0 ≤ behind ∧ behind < code.length → m.step.status = .running) ∧
      (m.step.status = .running →
        (0 ≤ behind ∧ behind < code.length) ∧
        ∀ k, let a := stepMany k m.step
          a.status = .running ∧ a.ip = behind ∧
          (a.schedule.tick a.ip).2 = some i ∧ a.dispatched = Instruction.persist.glyph ∧
          a.step.status = .running ∧ a.step.ip = behind ∧ m.Idles a.step ∧
          a.step.schedule.length = a.schedule.length + 1) := by
  intro m i behind hrunning hglyph hcell
  have hin : Inside code m := (reached code options source sink n).running hrunning
  have hat := hin.atPersist hrunning hglyph hcell
  have hplace : Place code i := hin.poised.pointer
  have hsize : m.image.size = code.length := size_image hin.program
  have hnext : m.armed.next = wrap behind := by
    show wrap (m.poised.ip + m.poised.direction.delta) = _
    rw [poised_direction]
  constructor
  · rintro ⟨-, hword⟩ ⟨hlo, hhi⟩
    rw [wrap_of_fits ⟨by omega, by omega⟩] at hnext
    exact (hat.caught (hnext ▸ hlo) (by rw [hnext, hsize]; exact hhi)).1.status
  · intro hstep
    obtain ⟨m', hexec, -, hlo, hhi⟩ := exists_execute_of_running hrunning hstep
    obtain rfl : m.armed = m' := congrArg Prod.fst (hat.execute.symm.trans hexec)
    have himage : m.armed.image = m.image := m.poised_image
    obtain ⟨hcaught, hidle, -⟩ := hat.caught hlo (himage ▸ hhi)
    have hbehind : ∀ a : Machine, Caught i a → m.Idles a → a.ip = behind := by
      intro a ha hidles
      rw [ha.ip_eq hplace.nonneg, hidles.direction]
    refine ⟨?_, ?_⟩
    · rw [← hbehind m.step hcaught hidle]
      have hreached := (reached code options source sink n).step.running hstep
      exact ⟨hreached.pointer.nonneg, hreached.pointer.lt⟩
    · intro k a
      obtain ⟨ha, hidles⟩ := hcaught.later k
      obtain ⟨hnext', hidles', hlength⟩ := ha.step
      obtain ⟨top, rest, htick, -⟩ := ha.tick_eq
      exact ⟨ha.status, hbehind a ha (hidle.trans hidles), by rw [htick], ha.atPersist.glyph,
        hnext'.status, hbehind a.step hnext' (hidle.trans (hidles.trans hidles')),
        hidle.trans (hidles.trans hidles'), hlength⟩

/--
The program `+JP.R` jumps over its `P`, turns around, reads a zero and is caught in the `P` on the
way back.
-/
theorem persist_on_zero_never_halts_in_reverse :
    let m := stepMany 5 (start [0x2B, 0x4A, 0x50, 0x2E, 0x52] {} {} {})
    (m.direction = .reverse ∧ m.poised.ip = 2 ∧ m.step.status = .running) ∧
      ∀ k, (stepMany k m.step).status = .running ∧ (stepMany k m.step).ip = 1 := by
  intro m
  have hstep : m.step.status = .running := by decide
  have hcaught := ((persist_on_zero_never_halts [0x2B, 0x4A, 0x50, 0x2E, 0x52] {} {} {} 5
    (by decide) (by decide) (by decide)).2 hstep).2
  refine ⟨⟨by decide, by decide, hstep⟩, ?_⟩
  intro k
  obtain ⟨hstatus, hip, -⟩ := hcaught k
  exact ⟨hstatus, hip.trans (by decide)⟩

end Machine

end TimeTape
