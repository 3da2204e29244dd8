/-
Which failures can happen, and where they are recorded.

Six paradoxes have a name, but a run only ever ends in two of them.  The instruction pointer
never leaves the program on the side it comes from, because whatever moves it moves it in the
direction of travel or to a place inside the program.  A bracket is never missing from its table,
because the byte that is executed is the one at the pointer.  What is left is a move below the
first cell, which takes running in reverse, and a jump through an unmatched bracket.  The other
two failures come from the surroundings.

Two bounds are assumed where they are used, both of which hold of anything kept in memory: the
farthest place an instruction can send the pointer to is a word, and so is the length of the tape.
-/
import TimeTape.Proofs.Pointers

namespace TimeTape.Machine

variable {code : Bytes} {m m' : Machine} {g : UInt8} {f : Failure}

/-! ### The pointer leaves the program ahead of it -/

/-- A stride from a place in the program never moves on to a place behind the program. -/
theorem next_of_stride (hcode : FitsWord (code.length + 255)) {i : Int} (hi : Place code i)
    {n : UInt8} (hip : m.ip = wrap (i + m.stride n)) :
    (m.direction = .forward → 0 ≤ m.next) ∧
      (m.direction = .reverse → m.next < code.length) := by
  obtain ⟨hlo, hlt, -⟩ := hi
  obtain ⟨-, hword⟩ := hcode
  have hn : n.toNat < 256 := n.toNat_lt
  constructor
  · intro hd
    rw [stride_forward hd, wrap_of_fits ⟨by omega, by omega⟩] at hip
    rw [next, hd, Direction.delta, hip, wrap_of_fits ⟨by omega, by omega⟩]
    omega
  · intro hd
    rw [stride_reverse hd, wrap_of_fits ⟨by omega, by omega⟩] at hip
    rw [next, hd, Direction.delta, hip, wrap_of_fits ⟨by omega, by omega⟩]
    omega

theorem next_of_place (hcode : FitsWord (code.length + 255)) (hip : Place code m.ip) :
    (m.direction = .forward → 0 ≤ m.next) ∧
      (m.direction = .reverse → m.next < code.length) := by
  refine next_of_stride hcode hip (n := 0) ?_
  rw [stride_eq]
  simp [wrap_of_fits hip.fits]

/-- The place that a bracket jumps to is in the program. -/
theorem Inside.partner_inside (h : Inside code m) {b : Instruction} (hb : b.isBracket)
    {target : Int} (hlookup : (m.bracketTable b)[m.ip]? = some (some target)) :
    0 ≤ target ∧ target < code.length := by
  refine Program.partner_inside (d := m.direction) (i := m.ip) ?_
  rw [← h.program]
  cases b with
  | opener => exact Or.inl hlookup
  | closer => exact Or.inr hlookup
  | _ => simp [Instruction.isBracket] at hb

theorem Inside.execute_next (hcode : FitsWord (code.length + 255)) (h : Inside code m)
    (hexec : m.execute g = (m', none)) :
    (m'.direction = .forward → 0 ≤ m'.next) ∧
      (m'.direction = .reverse → m'.next < code.length) := by
  cases course_of_execute h.cell hexec with
  | stay ip direction schedule
  | turn _ ip direction schedule
  | wait _ ip direction schedule =>
      exact next_of_place hcode (ip ▸ h.pointer)
  | erase _ ip direction schedule =>
      refine next_of_place hcode ?_
      rw [ip]
      split
      · exact (h.skipTicks _).pointer
      · exact h.pointer
  | leap _ ip direction schedule
  | persist _ ip direction schedule =>
      refine next_of_stride hcode h.pointer (n := m.cell) ?_
      rw [ip, stride_eq, stride_eq, direction]
  | follow b bracket _ ip direction schedule =>
      obtain ⟨hlo, hlt⟩ := h.partner_inside bracket ip
      obtain ⟨-, hword⟩ := hcode
      exact next_of_place ⟨by omega, by omega⟩ ⟨hlo, hlt, by omega, by omega⟩

/-- A step fails while it executes its byte, or because the pointer leaves on the wrong side. -/
theorem Inside.failing_step (h : Inside code m) (hrunning : m.status = .running)
    (hfail : m.step.status = .failed f) :
    (∃ m' fault, m.poised.execute m.dispatched = (m', some fault) ∧ m.step = m'.fail fault ∧
      f = { fault, ip := m'.ip, mp := m'.mp }) ∨
    ∃ m', m.poised.execute m.dispatched = (m', none) ∧
      (m'.direction = .forward ∧ m'.next < 0 ∧ f.fault = .paradox .beforeStart ∨
        m'.direction = .reverse ∧ m'.image.size ≤ m'.next ∧ f.fault = .paradox .pastEnd) := by
  rw [step_of_running hrunning] at hfail ⊢
  cases hexec : m.poised.execute m.dispatched with
  | mk m' fault? =>
      rw [hexec] at hfail
      cases fault? with
      | some fault =>
          refine Or.inl ⟨m', fault, rfl, rfl, ?_⟩
          simpa [fail, eq_comm] using hfail
      | none =>
          refine Or.inr ⟨m', rfl, ?_⟩
          have hrunning' : m'.status = .running := by
            rw [(execute_fixed h.poised.cell hexec).status, poised_status, hrunning]
          have harrival := arrival_of_moveOn m'
          simp only [goOn_done] at hfail
          generalize m'.moveOn = m'' at harrival hfail
          cases harrival with
          | inside lo hi => simp [hrunning'] at hfail
          | exit past => simp at hfail
          | beforeStart direction negative =>
              simp only [fail, Status.failed.injEq] at hfail
              exact Or.inl ⟨direction, negative, by rw [← hfail]⟩
          | pastEnd direction past =>
              simp only [fail, Status.failed.injEq] at hfail
              exact Or.inr ⟨direction, past, by rw [← hfail]⟩

/-- A step that fails does so while it executes its byte. -/
theorem Inside.failing_byte (hcode : FitsWord (code.length + 255)) (h : Inside code m)
    (hrunning : m.status = .running) (hfail : m.step.status = .failed f) :
    ∃ m' fault, m.poised.execute m.dispatched = (m', some fault) ∧ m.step = m'.fail fault ∧
      f = { fault, ip := m'.ip, mp := m'.mp } := by
  rcases h.failing_step hrunning hfail with hbyte | ⟨m', hexec, hwrong⟩
  · exact hbyte
  · -- Whatever the byte has done, the pointer moves on ahead.
    exfalso
    obtain ⟨hforward, hreverse⟩ := h.poised.execute_next hcode hexec
    have hprogram : m'.program = Program.ofBytes code :=
      (execute_fixed h.poised.cell hexec).program.trans h.poised.program
    rw [size_image hprogram] at hwrong
    rcases hwrong with ⟨direction, negative, -⟩ | ⟨direction, past, -⟩
    · have := hforward direction
      omega
    · have := hreverse direction
      omega

/-! ### The failures that are left -/

/-- A bracket of the program is on file in the direction in which it is read. -/
theorem Inside.bracket_filed (h : Inside code m) {b : Instruction} (hb : b.isBracket)
    (hglyph : m.image.glyphAt m.ip = b.glyph) : (m.bracketTable b)[m.ip]? ≠ none := by
  obtain ⟨hlo, hlt, -⟩ := h.pointer
  have hbyte := Program.getElem?_text (d := m.direction) hlo hlt
  rw [← h.program, ← image, hglyph] at hbyte
  have himage : m.image = Image.ofBytes (Program.text code m.direction) := by
    rw [image, h.program, Program.image_ofBytes]
  have hip : (m.ip.toNat : Int) = m.ip := Int.toNat_of_nonneg hlo
  intro hnone
  cases b with
  | opener =>
      obtain ⟨p, hp⟩ := Pairing.forward_of_opener hbyte
      replace hnone : m.image.brackets.forward[m.ip]? = none := hnone
      rw [himage] at hnone
      rw [hip] at hp
      exact absurd (hp.symm.trans hnone) (by simp)
  | closer =>
      obtain ⟨p, hp⟩ := Pairing.backward_of_closer hbyte
      replace hnone : m.image.brackets.backward[m.ip]? = none := hnone
      rw [himage] at hnone
      rw [hip] at hp
      exact absurd (hp.symm.trans hnone) (by simp)
  | _ => simp [Instruction.isBracket] at hb

/-- The ways in which the next step of a running machine can fail. -/
inductive Mishap (m : Machine) (f : Failure) : Prop where
  /-- A move in reverse from the first cell. -/
  | belowFirstCell (fault : f.fault = .paradox .negativeAddress)
      (glyph : m.dispatched = Instruction.move.glyph) (direction : m.direction = .reverse)
      (before : m.mp = 0) (after : f.mp = -1)
  /-- A bracket that is to jump and has no partner in the image in use. -/
  | looseBracket (b : Instruction) (bracket : b.isBracket)
      (fault : f.fault = .paradox (.unmatched b.glyph f.ip m.direction))
      (glyph : m.dispatched = b.glyph) (jumps : m.takesJump b)
      (unmatched : f.ip ∈ m.image.brackets.unmatched)
  /-- Output that the sink refuses. -/
  | unwritten (reason : String) (fault : f.fault = .unwritten reason)
      (glyph : m.dispatched = Instruction.io.glyph) (direction : m.direction = .forward)
      (refused : m.sink.write (encodeCell m.cell) = .error reason)
  /-- Input that the source fails to give. -/
  | unread (reason : String) (fault : f.fault = .unread reason)
      (glyph : m.dispatched = Instruction.io.glyph) (direction : m.direction = .reverse)
      (failed : m.source.readLine.2 = .error reason)

/-- A bracket that is filed without a partner is unmatched. -/
theorem mem_unmatched_of_lookup {b : Instruction} {i : Int}
    (h : (m.bracketTable b)[i]? = some none) : i ∈ m.image.brackets.unmatched := by
  rw [Pairing.mem_unmatched]
  cases b with
  | closer => exact Or.inr h
  | _ => exact Or.inl h

/-- A byte that fails is a mishap, recorded at the byte's own place. -/
theorem Inside.mishap (h : Inside code m) (htape : FitsWord m.tape.size) {fault : Fault}
    (hexec : m.poised.execute m.dispatched = (m', some fault)) :
    m.Mishap { fault, ip := m'.ip, mp := m'.mp } := by
  obtain ⟨hupset, hspared⟩ := upset_of_execute h.poised.cell hexec
  have hip := hspared.ip
  have hglyphAt : m.poised.image.glyphAt m.poised.ip = m.dispatched := by
    rw [poised_image, dispatched_eq]
  cases hupset with
  | move glyph mp negative =>
      obtain ⟨hlo, hhi⟩ := h.cell
      obtain ⟨-, hword⟩ := htape
      rw [poised_mp, poised_direction] at mp
      cases hd : m.direction with
      | forward =>
          rw [hd, Direction.delta, wrap_of_fits ⟨by omega, by omega⟩] at mp
          omega
      | reverse =>
          rw [hd, Direction.delta, wrap_of_fits ⟨by omega, by omega⟩] at mp
          exact .belowFirstCell rfl glyph hd (by omega) (show m'.mp = -1 by omega)
  | unfiled b bracket glyph lookup =>
      exact absurd lookup (h.poised.bracket_filed bracket (hglyphAt.trans glyph))
  | unmatched b bracket glyph jumps lookup =>
      rw [poised_takesJump] at jumps
      rw [poised_bracketTable] at lookup
      refine .looseBracket b bracket ?_ glyph jumps ?_
      · simp only [glyph, poised_direction, hip]
      · rw [hip]
        exact mem_unmatched_of_lookup lookup
  | unwritten reason glyph direction refused =>
      exact .unwritten reason rfl glyph (by simpa using direction) (by simpa using refused)
  | unread reason glyph direction failed =>
      exact .unread reason rfl glyph (by simpa using direction) (by simpa using failed)

/-- A step that fails is a mishap at the byte it executes, and leaves the tape alone. -/
theorem Inside.mishap_of_step (hcode : FitsWord (code.length + 255))
    (htape : FitsWord m.step.tape.size) (h : Inside code m) (hrunning : m.status = .running)
    (hfail : m.step.status = .failed f) :
    m.Mishap f ∧ 0 ≤ f.ip ∧ f.ip < code.length ∧ m.step.image.glyphAt f.ip = m.dispatched ∧
      m.step.tape = m.tape := by
  obtain ⟨m', fault, hexec, hfailed, rfl⟩ := h.failing_byte hcode hrunning hfail
  have hspared := (upset_of_execute h.poised.cell hexec).2
  have hsame : m.step.tape = m.tape := by
    rw [hfailed]
    exact hspared.tape.trans m.poised_tape
  have himage : m.step.image = m.image := by
    rw [hfailed, image, image]
    show m'.program.image m'.direction = _
    rw [(execute_fixed h.poised.cell hexec).program, hspared.direction, poised_program,
      poised_direction]
  rw [hsame] at htape
  refine ⟨h.mishap htape hexec, ?_, ?_, ?_, hsame⟩
  · rw [hspared.ip]
    exact h.poised.pointer.nonneg
  · rw [hspared.ip]
    exact h.poised.pointer.lt
  · rw [himage, hspared.ip, dispatched_eq]

/-- A loose bracket that stops the machine is one of the direction of travel, however long the
program is. -/
theorem Inside.unmatched_of_step (h : Inside code m) (hrunning : m.status = .running)
    (hfail : m.step.status = .failed f) {i : Int} {d : Direction}
    (hfault : f.fault = .paradox (.unmatched g i d)) :
    i = f.ip ∧ d = m.step.direction ∧
      i ∈ ((Program.ofBytes code).image d).brackets.unmatched := by
  rcases h.failing_step hrunning hfail with
    ⟨m', fault, hexec, hstep, rfl⟩ | ⟨m', -, ⟨-, -, hother⟩ | ⟨-, -, hother⟩⟩
  · replace hfault : fault = .paradox (.unmatched g i d) := hfault
    subst hfault
    obtain ⟨hupset, hspared⟩ := upset_of_execute h.poised.cell hexec
    cases hupset with
    | unmatched b bracket glyph jumps lookup =>
        have hdirection : m.step.direction = m.poised.direction := by
          rw [hstep]
          exact hspared.direction
        refine ⟨hspared.ip.symm, hdirection.symm, ?_⟩
        rw [← h.poised.program]
        exact mem_unmatched_of_lookup lookup
  · simp [hfault] at hother
  · simp [hfault] at hother

/-! ### The step at which a run fails -/

/-- A machine that has failed by some step did so in one step, from a running machine. -/
theorem exists_failing_step (h : ∀ f, m.status ≠ .failed f) {n : Nat}
    (hfail : (stepMany n m).status = .failed f) :
    ∃ k < n, (stepMany k m).status = .running ∧ (stepMany k m).step = stepMany n m := by
  induction n with
  | zero => exact absurd hfail (h f)
  | succ n ih =>
      rw [stepMany_succ] at hfail ⊢
      by_cases hrunning : (stepMany n m).status = .running
      · exact ⟨n, by omega, hrunning, rfl⟩
      · rw [step_of_stopped hrunning] at hfail ⊢
        obtain ⟨k, hk, hrest⟩ := ih hfail
        exact ⟨k, by omega, hrest⟩

theorem start_not_failed (code : Bytes) (options : Options) (source : Source) (sink : Sink)
    (f : Failure) : (start code options source sink).status ≠ .failed f := by
  rw [start_status]
  split <;> simp

/--
**Failures are classified and located.**  Whenever a run has failed, there is one step at which
a running machine `m` did so, and it is one of the four mishaps: no run ends in any other
paradox.  The place that is recorded is in the program, the byte there is the one that failed,
and the tape is the one before the step.
-/
theorem failure_is_mishap (code : Bytes) (options : Options) (source : Source) (sink : Sink)
    (n : Nat) (f : Failure) (hcode : FitsWord (code.length + 255))
    (htape : FitsWord (stepMany n (start code options source sink)).tape.size)
    (hfail : (stepMany n (start code options source sink)).status = .failed f) :
    ∃ k < n, ∃ m, m = stepMany k (start code options source sink) ∧ m.status = .running ∧
      m.step = stepMany n (start code options source sink) ∧ m.Mishap f ∧
      0 ≤ f.ip ∧ f.ip < code.length ∧ m.step.image.glyphAt f.ip = m.dispatched ∧
      m.step.tape = m.tape := by
  obtain ⟨k, hk, hrunning, hstep⟩ :=
    exists_failing_step (start_not_failed code options source sink) hfail
  refine ⟨k, hk, stepMany k (start code options source sink), rfl, hrunning, hstep, ?_⟩
  rw [← hstep] at hfail htape
  exact ((reached code options source sink k).running hrunning).mishap_of_step hcode htape
    hrunning hfail

/-- The program `+J>R` jumps over its move, turns around and moves below the first cell. -/
theorem failure_is_mishap_of_reverse_move :
    let first := start [0x2B, 0x4A, 0x3E, 0x52] {} {} {}
    (stepMany 4 first).status = .failed { fault := .paradox .negativeAddress, ip := 2, mp := -1 } ∧
      ∃ k < 4, ∃ m, m = stepMany k first ∧ m.status = .running ∧ m.step = stepMany 4 first ∧
        m.Mishap { fault := .paradox .negativeAddress, ip := 2, mp := -1 } ∧
        (0 : Int) ≤ 2 ∧ (2 : Int) < 4 ∧ m.step.image.glyphAt 2 = m.dispatched ∧
        m.step.tape = m.tape :=
  ⟨by decide, failure_is_mishap [0x2B, 0x4A, 0x3E, 0x52] {} {} {} 4 _ (by decide) (by decide)
    (by decide)⟩

end TimeTape.Machine
