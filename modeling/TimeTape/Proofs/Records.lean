/-
Records change nothing.

A machine may keep notes of what it does, and it counts what it executes.  These are records:
nothing that it does depends on them.  Nor does it depend on what has been written so far, and of
the input it depends on the line that it reads.  A `Redaction` is a change of all this that goes on
noting what is noted and writing what is written, and no instruction can tell whether it comes
before or after one, except that `.` reads and that `E` ticks and ticks are counted.  A redaction
that goes on counting as well commutes with a step.  `bare` is a machine with its notes and its
profile and the settings for them taken away, which is such a redaction.

So a machine with records does what it would have done without them, and two machines that differ in
their records only are, without these, the same machine.  No relation between two runs has to be
carried along.
-/
import TimeTape.Proofs.Debugger
import TimeTape.Proofs.Execution
import TimeTape.Proofs.Sessions

namespace TimeTape

/-- A change of what a machine keeps on record, of whether it does, and of its input and output. -/
structure Redaction where
  verbose : Bool → Bool := id
  profiling : Bool → Bool := id
  notes : List Event → List Event := id
  profile : Option Profile → Option Profile := id
  steps : UInt64 → UInt64 := id
  source : Source → Source := id
  sink : Sink → Sink := id
  /-- What is noted after the change is what the change makes of what is noted before it. -/
  noted : ∀ v e ns,
    (if verbose v then e :: notes ns else notes ns) = notes (if v then e :: ns else ns)
  /-- What is written after the change is what the change makes of what is written before it. -/
  written : ∀ s chunk, (sink s).write chunk = (s.write chunk).map sink

namespace Redaction

/-- The change makes no difference to the next line of an input. -/
def KeepsLine (r : Redaction) (s : Source) : Prop :=
  (r.source s).readLine = (r.source s.readLine.1, s.readLine.2)

/-- The change makes no difference to how steps, instructions and redirects are counted. -/
structure KeepsCounts (r : Redaction) : Prop where
  steps : ∀ s, r.steps s + 1 = r.steps (s + 1)
  record : ∀ i g p, (r.profile p).map (·.record i g) = r.profile (p.map (·.record i g))
  redirect : ∀ p, (r.profile p).map (·.redirect) = r.profile (p.map (·.redirect))

/-- A sink that is left alone takes what it is given. -/
theorem write_id (s : Sink) (chunk : Bytes) : (id s).write chunk = (s.write chunk).map id := by
  rw [Except.map_id]
  rfl

end Redaction

namespace Machine

variable (m : Machine) (e : Event) (g : UInt8) (n : Nat)

/-! ### Changing the records -/

/-- The machine with its records changed. -/
def redact (r : Redaction) : Machine :=
  { m with
    options :=
      { m.options with
        verbose := r.verbose m.options.verbose
        profile := r.profiling m.options.profile }
    notes := r.notes m.notes
    profile := r.profile m.profile
    steps := r.steps m.steps
    source := r.source m.source
    sink := r.sink m.sink }

section Redact

variable (r : Redaction) (a : Arithmetic)

theorem note_redact : (m.redact r).note e = (m.note e).redact r := by
  have hnotes := r.noted m.options.verbose e m.notes
  have hverbose : (m.redact r).options.verbose = r.verbose m.options.verbose := rfl
  unfold note
  rw [hverbose]
  by_cases hbefore : m.options.verbose = true
  · rw [if_pos hbefore] at hnotes ⊢
    split at hnotes <;> simp_all [redact]
  · rw [if_neg hbefore] at hnotes ⊢
    split at hnotes <;> simp_all [redact]

/-- What is done with the cell may come before the change if what comes after it may. -/
theorem withCell_redact {next : UInt8 → Machine → Machine × Option Fault}
    (hnext : ∀ c m, next c (redact m r) = ((next c m).1.redact r, (next c m).2)) :
    (m.redact r).withCell next = ((m.withCell next).1.redact r, (m.withCell next).2) := by
  unfold withCell
  have hread : (m.redact r).tape.read? (m.redact r).mp = m.tape.read? m.mp := rfl
  rw [hread]
  cases m.tape.read? m.mp with
  | none => rfl
  | some c => exact hnext c.1 { m with tape := c.2 }

theorem withTape_redact (tape? : Option Tape) :
    (m.redact r).withTape tape? = ((m.withTape tape?).1.redact r, (m.withTape tape?).2) := by
  cases tape? <;> rfl

/-- A cell may be written before the change, or a line read that the change does not touch. -/
theorem exchange_redact (hline : m.direction = .reverse → r.KeepsLine m.source) :
    (m.redact r).exchange = (m.exchange.1.redact r, m.exchange.2) := by
  unfold exchange
  have hdirection : (m.redact r).direction = m.direction := rfl
  rw [hdirection]
  cases hm : m.direction with
  | forward =>
      refine m.withCell_redact r fun c m => ?_
      have hsink : (m.redact r).sink.write (encodeCell c)
          = (m.sink.write (encodeCell c)).map r.sink := r.written m.sink _
      rw [hsink]
      cases m.sink.write (encodeCell c) <;> rfl
  | reverse =>
      simp only [note_redact]
      have hsource : ((m.note .awaitingInput).redact r).source.readLine
          = (r.source m.source.readLine.1, m.source.readLine.2) := by
        rw [redact, note_source]
        exact hline hm
      rw [hsource, note_source]
      rcases m.source.readLine with ⟨source, reason | line⟩
      · rfl
      · exact withTape_redact { m.note .awaitingInput with source } r _

theorem follow_redact (table : Std.TreeMap Int Partner) :
    (m.redact r).follow g table = ((m.follow g table).1.redact r, (m.follow g table).2) := by
  unfold follow
  have hlookup : table[(m.redact r).ip]? = table[m.ip]? := rfl
  rw [hlookup]
  rcases table[m.ip]? with _ | _ | target
  · rfl
  · rfl
  · simp only [note_redact]
    rfl

theorem jump_redact : (m.redact r).jump g = ((m.jump g).1.redact r, (m.jump g).2) := by
  refine m.withCell_redact r fun c m => ?_
  cases Instruction.ofGlyph? g with
  | none => rfl
  | some i =>
      cases i with
      | opener =>
          simp only
          split
          · exact m.follow_redact g r _
          · rfl
      | closer =>
          have hoptions : (m.redact r).options.repeatOnNonZero = m.options.repeatOnNonZero := rfl
          simp only [hoptions]
          by_cases hback : if m.options.repeatOnNonZero then c ≠ 0 else c = 0
          · simp only [if_pos hback]
            exact m.follow_redact g r _
          · simp only [if_neg hback]
      | _ => rfl

/--
A byte may be executed before the change, unless it reads a line that the change touches, or ticks
and the change is about ticks.
-/
theorem execute_redact
    (hline : g = Instruction.io.glyph → m.direction = .reverse → r.KeepsLine m.source)
    (hticks : g = Instruction.erase.glyph → ∀ n m,
      skipTicks n (redact m r) a = (skipTicks n m a).redact r) :
    (m.redact r).execute g a = ((m.execute g a).1.redact r, (m.execute g a).2) := by
  unfold execute
  cases hg : Instruction.ofGlyph? g with
  | none => exact congrArg (·, none) (m.note_redact _ r)
  | some i =>
      cases i with
      | reverse => rfl
      | erase =>
          have hskip := hticks (Instruction.ofGlyph?_eq_some_iff.mp hg)
          refine m.withCell_redact r fun n m => ?_
          simp only [hskip]
          have hoptions : (m.redact r).options.eraseMovesPointer = m.options.eraseMovesPointer :=
            rfl
          rw [hoptions]
          split <;> rfl
      | jump => exact m.withCell_redact r fun _ _ => rfl
      | wait => exact m.withCell_redact r fun _ _ => rfl
      | persist => exact m.withCell_redact r fun _ _ => rfl
      | io => exact m.exchange_redact r (hline (Instruction.ofGlyph?_eq_some_iff.mp hg))
      | plus => exact m.withTape_redact r _
      | move => exact withTape_redact { m with mp := a.reduce (m.mp + m.direction.delta) } r _
      | opener => exact m.jump_redact g r
      | closer => exact m.jump_redact g r

theorem moveOn_redact : (m.redact r).moveOn a = (m.moveOn a).redact r := by
  have hstays : staysInside
        { m.redact r with ip := a.reduce ((m.redact r).ip + (m.redact r).direction.delta) }
      = staysInside { m with ip := a.reduce (m.ip + m.direction.delta) } := rfl
  simp only [moveOn, hstays]
  rcases staysInside { m with ip := a.reduce (m.ip + m.direction.delta) } with fault | _ | _
  · rfl
  · rfl
  · rfl

theorem goOn_redact (executed : Machine × Option Fault) :
    goOn (executed.1.redact r, executed.2) a = (goOn executed a).redact r := by
  rcases executed with ⟨m', _ | fault⟩
  · exact m'.moveOn_redact r a
  · rfl

end Redact

section KeepsCounts

variable {m n} {r : Redaction} (hcounts : r.KeepsCounts)

include hcounts

theorem tick_redact : (m.redact r).tick g = ((m.tick g).1.redact r, (m.tick g).2) := by
  have hschedule : (m.redact r).schedule.tick (m.redact r).ip = m.schedule.tick m.ip := rfl
  unfold tick
  rw [hschedule]
  rcases m.schedule.tick m.ip with ⟨schedule, target?⟩
  cases target? with
  | none => rfl
  | some target =>
      simp only [note_redact]
      rw [redact, hcounts.redirect]
      rfl

theorem skipTicks_redact : skipTicks n (m.redact r) = (skipTicks n m).redact r := by
  induction n generalizing m with
  | zero => rfl
  | succ n ih => rw [skipTicks, skipTicks, tick_redact 0 hcounts, ih]

theorem count_redact : (m.redact r).count g = (m.count g).redact r := by
  have hsteps : Arithmetic.wrapping.next (r.steps m.steps) = _ := hcounts.steps m.steps
  have hrecord : (r.profile m.profile).map (·.record m.ip g) = _ := hcounts.record m.ip g m.profile
  rw [count_eq, count_eq, note_redact]
  simp only [redact, hsteps, hrecord]
  rfl

theorem poised_redact :
    (m.redact r).poised = m.poised.redact r ∧ (m.redact r).dispatched = m.dispatched := by
  have hglyph : (m.redact r).glyphAt (m.redact r).ip = m.glyphAt m.ip := rfl
  have hdispatched : (m.redact r).dispatched = m.dispatched := by
    rw [dispatched, hglyph, tick_redact _ hcounts, dispatched]
  refine ⟨?_, hdispatched⟩
  rw [poised, hdispatched, hglyph, tick_redact _ hcounts, count_redact _ hcounts, poised]

/-- **A redaction that goes on counting commutes with a step.** -/
theorem step_redact
    (hline : m.status = .running → m.dispatched = Instruction.io.glyph → m.direction = .reverse →
      r.KeepsLine m.source) :
    (m.redact r).step = m.step.redact r := by
  by_cases hrunning : m.status = .running
  · obtain ⟨hpoised, hdispatched⟩ := poised_redact (m := m) hcounts
    rw [step_of_running hrunning, step_of_running (m := m.redact r) hrunning, hpoised, hdispatched,
      execute_redact, goOn_redact]
    · simpa using hline hrunning
    · exact fun _ n m => skipTicks_redact hcounts
  · rw [step_of_stopped hrunning, step_of_stopped (m := m.redact r) hrunning]

end KeepsCounts

/-! ### A machine without its records -/

/-- The redaction that leaves neither notes nor a profile. -/
def Redaction.all : Redaction where
  verbose _ := false
  profiling _ := false
  notes _ := []
  profile _ := none
  noted := by simp
  written := Redaction.write_id

theorem Redaction.keepsCounts_all : Redaction.all.KeepsCounts :=
  ⟨fun _ => rfl, fun _ _ _ => rfl, fun _ => rfl⟩

/-- The machine as if it kept neither notes nor counts. -/
def bare : Machine :=
  { m with
    options := { m.options with verbose := false, profile := false }
    notes := []
    profile := none }

theorem bare_note : (m.note e).bare = m.bare := by
  obtain ⟨notes, hnote⟩ := m.exists_note e
  rw [hnote]
  rfl

theorem bare_start {code : Bytes} {o o' : Options} {source : Source} {sink : Sink}
    (hrepeat : o.repeatOnNonZero = o'.repeatOnNonZero)
    (herase : o.eraseMovesPointer = o'.eraseMovesPointer) :
    (start code o source sink).bare = (start code o' source sink).bare := by
  rw [start, start, bare_note, bare_note, bare_note, bare_note, bare, bare]
  simp only [hrepeat, herase]

/-- Everything that can be seen of two machines is the same, but for their records. -/
structure Alike (m m' : Machine) : Prop where
  ip : m.ip = m'.ip
  mp : m.mp = m'.mp
  direction : m.direction = m'.direction
  image : m.image = m'.image
  tape : m.tape = m'.tape
  schedule : m.schedule = m'.schedule
  steps : m.steps = m'.steps
  status : m.status = m'.status
  source : m.source = m'.source
  sink : m.sink = m'.sink

theorem alike_of_bare {m m' : Machine} (h : m.bare = m'.bare) : m.Alike m' :=
  ⟨(congrArg Machine.ip h :), (congrArg Machine.mp h :), (congrArg Machine.direction h :),
    (congrArg Machine.image h :), (congrArg Machine.tape h :), (congrArg Machine.schedule h :),
    (congrArg Machine.steps h :), (congrArg Machine.status h :), (congrArg Machine.source h :),
    (congrArg Machine.sink h :)⟩

/-! ### Runs and sessions -/

/-- **A machine without its records takes the same step.** -/
theorem step_bare : m.bare.step = m.step.bare :=
  step_redact Redaction.keepsCounts_all fun _ _ _ => rfl

theorem run_bare (limit : UInt64) (fuel : Nat) :
    m.bare.run limit fuel = ((m.run limit fuel).1.bare, (m.run limit fuel).2) := by
  induction fuel generalizing m with
  | zero => rfl
  | succ fuel ih =>
      have hover : m.step.bare.isOver limit = m.step.isOver limit := rfl
      rw [run_succ, run_succ, step_bare, hover]
      split
      · rfl
      · exact ih m.step

theorem runUnless_bare (canceled : Bool) (limit : UInt64) (fuel : Nat) :
    m.bare.runUnless canceled limit fuel
      = ((m.runUnless canceled limit fuel).1.bare, (m.runUnless canceled limit fuel).2) := by
  cases canceled with
  | true => rfl
  | false => exact m.run_bare limit fuel

end Machine

namespace Debugger

open Machine

variable (d : Debugger)

/-- The debugger with the machine as if it kept no records. -/
def bare : Debugger :=
  { d with machine := d.machine.bare }

theorem pause?_bare (resuming stepDue : Bool) :
    d.bare.pause? resuming stepDue
      = (d.pause? resuming stepDue).map fun stop => (stop.1, stop.2.bare) := by
  have hsame : d.bare.pause? resuming stepDue = (d.pause? resuming stepDue).map fun stop =>
      (stop.1, { stop.2 with machine := d.machine.bare }) := pause?_congr rfl rfl
  rw [hsame]
  refine Option.map_congr fun stop hstop => ?_
  obtain ⟨-, -, -, stepping, hd⟩ := pause?_eq_some hstop
  rw [bare, hd]

theorem loop_bare (limit : UInt64) (fuel : Nat) (resuming stepDue : Bool) :
    d.bare.loop limit fuel resuming stepDue
      = ((d.loop limit fuel resuming stepDue).1.bare, (d.loop limit fuel resuming stepDue).2) := by
  induction fuel generalizing d resuming stepDue with
  | zero => rfl
  | succ fuel ih =>
      cases hpause : d.pause? resuming stepDue with
      | some stop =>
          have hbare := d.pause?_bare resuming stepDue
          rw [hpause] at hbare
          rw [loop_of_stop hpause, loop_of_stop hbare]
          rfl
      | none =>
          have hbare := d.pause?_bare resuming stepDue
          rw [hpause] at hbare
          have hstep : d.bare.machine.step = d.machine.step.bare := d.machine.step_bare
          have hover : d.machine.step.bare.isOver limit = d.machine.step.isOver limit := rfl
          rw [loop_of_step hpause, loop_of_step hbare, hstep, hover]
          split
          · rfl
          · exact ih { d with machine := d.machine.step } false true

theorem resume_bare (canceled : Bool) (limit : UInt64) (fuel : Nat) :
    d.bare.resume canceled limit fuel
      = ((d.resume canceled limit fuel).1.bare, (d.resume canceled limit fuel).2) := by
  cases canceled with
  | true => rfl
  | false => exact loop_bare { d with paused := false } limit fuel d.paused false

/-- A change of the breakpoints that is made or refused on a condition. -/
theorem change_bare {c : Prop} [Decidable c] (breakpoints : Std.TreeMap Int Bool)
    (refusal : BreakpointError) :
    (if c then .ok { d.bare with breakpoints } else .error refusal)
      = (if c then .ok { d with breakpoints } else .error refusal : Except _ _).map bare := by
  split <;> rfl

theorem edit_bare (e : Edit) : d.bare.edit e = (d.edit e).map bare := by
  cases e with
  | set index => exact d.change_bare _ _
  | remove index => exact d.change_bare _ _
  | enable index => exact d.change_bare _ _
  | disable index => exact d.change_bare _ _
  | clear => rfl

theorem respond_bare (request : Request) :
    d.bare.respond request = ((d.respond request).1.bare, (d.respond request).2) := by
  cases request with
  | edit e =>
      rw [respond, respond, edit_bare]
      cases d.edit e <;> rfl
  | stepInto => rfl
  | step =>
      have hstep : d.bare.machine.step = d.machine.step.bare := d.machine.step_bare
      simp only [respond, hstep]
      rfl
  | run canceled limit fuel =>
      have hrun : d.bare.machine.runUnless canceled limit fuel
          = ((d.machine.runUnless canceled limit fuel).1.bare,
            (d.machine.runUnless canceled limit fuel).2) :=
        d.machine.runUnless_bare canceled limit fuel
      simp only [respond, hrun]
      rfl
  | resume canceled limit fuel => simp only [respond, resume_bare]

/-- **Without its records, a machine gives the same answers throughout a session.** -/
theorem session_bare (requests : List Request) :
    d.bare.session requests = ((d.session requests).1.bare, (d.session requests).2) := by
  induction requests generalizing d with
  | nil => rfl
  | cons request rest ih => simp only [session, respond_bare, ih]

/--
**Notes and counts change nothing.**  Take two machines with the same program, input and output
whose options differ at most in whether notes and counts are kept.  In a session of any requests,
steps, runs and resumed runs among them, both give the same answers, and afterwards they are alike:
their pointers, direction, image, tape, schedule, steps and status, what is left of the input and
what has been written.  A request that is cut short, at whatever point, is no exception.
-/
theorem records_change_nothing (code : Bytes) (source : Source) (sink : Sink) (o o' : Options)
    (hrepeat : o.repeatOnNonZero = o'.repeatOnNonZero)
    (herase : o.eraseMovesPointer = o'.eraseMovesPointer) (requests : List Request) :
    let s := session { machine := start code o source sink } requests
    let s' := session { machine := start code o' source sink } requests
    s.2 = s'.2 ∧ s.1.machine.Alike s'.1.machine ∧
      s.1.breakpoints = s'.1.breakpoints ∧ s.1.stepping = s'.1.stepping ∧
      s.1.paused = s'.1.paused := by
  intro s s'
  have hstart : bare { machine := start code o source sink }
      = bare { machine := start code o' source sink } :=
    congrArg (fun m : Machine => ({ machine := m } : Debugger)) (bare_start hrepeat herase)
  have hbare : (s.1.bare, s.2) = (s'.1.bare, s'.2) := by
    rw [← session_bare, ← session_bare, hstart]
  obtain ⟨hdebugger, hanswers⟩ := Prod.mk.inj hbare
  exact ⟨hanswers, alike_of_bare (congrArg Debugger.machine hdebugger :),
    (congrArg Debugger.breakpoints hdebugger :), (congrArg Debugger.stepping hdebugger :),
    (congrArg Debugger.paused hdebugger :)⟩

/--
In a session with `++W{.}`, one machine keeps notes and counts and the other does not.  They stop at
a breakpoint, take a step that is redirected, and run on to the limit.
-/
theorem records_change_nothing_in_session :
    let code : Bytes := [0x2B, 0x2B, 0x57, 0x7B, 0x2E, 0x7D]
    let requests : List Request := [.edit (.set 4), .resume false 0 9, .step, .run false 9 9]
    let noting : Options := { verbose := true, repeatOnNonZero := true, profile := true }
    let plain : Options := { repeatOnNonZero := true }
    let s := session { machine := start code noting {} {} } requests
    let s' := session { machine := start code plain {} {} } requests
    (s.1.machine.notes.length = 14 ∧ s'.1.machine.notes.length = 0) ∧
      s.2 = s'.2 ∧ s.1.machine.Alike s'.1.machine ∧
      s.1.breakpoints = s'.1.breakpoints ∧ s.1.stepping = s'.1.stepping ∧
      s.1.paused = s'.1.paused := by
  intro code requests noting plain
  exact ⟨by decide +kernel, records_change_nothing code {} {} noting plain rfl rfl requests⟩

end Debugger

end TimeTape
