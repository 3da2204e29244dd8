/-
What executing a byte can do.

The instructions are told apart once, in `effect_of_execute`, which gives the machine after each of
them as a whole.  What is said later reads off one side of that list at a time: the course of the
instruction pointer with the direction and the schedule, the handling of the memory, the reasons to
fail.  All of it assumes that there is a cell under the memory pointer, and `execute_onTape` says
that there is one again afterwards.
-/
import TimeTape.Proofs.Machine
import Mathlib.Tactic.Common

namespace TimeTape

theorem Instruction.ofGlyph?_eq_some_iff {g : UInt8} {i : Instruction} :
    ofGlyph? g = some i ↔ g = i.glyph := by
  constructor
  · intro h
    have hmem := List.find?_some h
    exact (by simpa using hmem : i.glyph = g).symm
  · rintro rfl
    exact ofGlyph?_glyph i

namespace Machine

variable {m m' : Machine} {g : UInt8}

/-! ### The current cell -/

/-- Whether there is a cell under the memory pointer. -/
def OnTape (m : Machine) : Prop :=
  0 ≤ m.mp ∧ m.mp < m.tape.size

/-- The cell under the memory pointer. -/
def cell (m : Machine) : UInt8 :=
  m.tape.cell m.mp.toNat

theorem OnTape.toNat_lt (h : m.OnTape) : m.mp.toNat < m.tape.size := by
  obtain ⟨hlo, hhi⟩ := h
  omega

theorem OnTape.toNat_eq (h : m.OnTape) : (m.mp.toNat : Int) = m.mp :=
  Int.toNat_of_nonneg h.1

theorem withCell_eq (h : m.OnTape) (next : UInt8 → Machine → Machine × Option Fault) :
    m.withCell next = next m.cell m := by
  have hread : m.tape.read? m.mp = some (m.cell, m.tape) := by
    rw [← h.toNat_eq, Tape.read?_of_lt h.toNat_lt, cell]
  simp only [withCell, hread]

/-! ### Brackets -/

/-- Whether a bracket jumps, given the current cell and the options. -/
def takesJump (m : Machine) : Instruction → Bool
  | .closer => if m.options.repeatOnNonZero then m.cell ≠ 0 else m.cell = 0
  | _ => m.cell = 0

/-- The table in which the partners of a kind of bracket are filed. -/
def bracketTable (m : Machine) : Instruction → Std.TreeMap Int Partner
  | .closer => m.image.brackets.backward
  | _ => m.image.brackets.forward

@[simp] theorem poised_cell (m : Machine) : m.poised.cell = m.cell := by simp [cell]

theorem poised_takesJump (m : Machine) (b : Instruction) :
    m.poised.takesJump b = m.takesJump b := by
  cases b <;> simp [takesJump]

theorem poised_bracketTable (m : Machine) (b : Instruction) :
    m.poised.bracketTable b = m.bracketTable b := by
  cases b <;> simp [bracketTable]

theorem jump_eq (h : m.OnTape) {b : Instruction} (hb : b.isBracket) :
    m.jump b.glyph = if m.takesJump b then m.follow b.glyph (m.bracketTable b) else (m, none) := by
  rw [jump, withCell_eq h, Instruction.ofGlyph?_glyph]
  cases b with
  | opener => simp [takesJump, bracketTable]
  | closer => by_cases hr : m.options.repeatOnNonZero <;> simp [takesJump, bracketTable, hr]
  | _ => simp [Instruction.isBracket] at hb

theorem execute_bracket {b : Instruction} (hb : b.isBracket) :
    m.execute b.glyph = m.jump b.glyph := by
  rw [execute, Instruction.ofGlyph?_glyph]
  cases b <;> first | rfl | simp [Instruction.isBracket] at hb

/-! ### What is computed from a cell -/

/-- What is computed from a cell alone is a word. -/
theorem fits_cell (c : UInt8) (d : Direction) :
    FitsWord (c.toNat * d.delta) ∧ FitsWord (c.toNat + 1) ∧ FitsWord (c.toNat + d.delta) := by
  have hc : c.toNat < 256 := c.toNat_lt
  cases d with
  | forward =>
      simp only [Direction.delta]
      exact ⟨⟨by omega, by omega⟩, ⟨by omega, by omega⟩, by omega, by omega⟩
  | reverse =>
      simp only [Direction.delta]
      exact ⟨⟨by omega, by omega⟩, ⟨by omega, by omega⟩, by omega, by omega⟩

theorem stride_eq (m : Machine) (n : UInt8) : m.stride n = n.toNat * m.direction.delta :=
  wrap_of_fits (fits_cell n m.direction).1

theorem wrap_add_one (n : UInt8) : wrap (n.toNat + 1) = n.toNat + 1 :=
  wrap_of_fits (fits_cell n .forward).2.1

/-! ### Scheduling -/

theorem execute_wait (hm : m.OnTape) :
    m.execute Instruction.wait.glyph =
      ({ m with
          schedule :=
            Redirect.after m.cell.toNat (wrap (m.ip + m.direction.delta)) false :: m.schedule },
        none) := by
  rw [execute, Instruction.ofGlyph?_glyph]
  simp only [withCell_eq hm, Arithmetic.wrapping_reduce]

theorem execute_persist (hm : m.OnTape) :
    m.execute Instruction.persist.glyph =
      ({ m with
          schedule :=
            Redirect.after (m.cell.toNat + 1) (wrap (m.ip + m.stride m.cell)) true :: m.schedule
          ip := wrap (m.ip + m.stride m.cell) },
        none) := by
  rw [execute, Instruction.ofGlyph?_glyph]
  simp only [withCell_eq hm, Arithmetic.wrapping_reduce, wrap_add_one]

/-! ### The effect of a byte -/

/-- What executing the byte `g` makes of a machine, and the fault it ends in. -/
inductive Effect (m : Machine) (g : UInt8) : Machine → Option Fault → Prop where
  | comment (unknown : Instruction.ofGlyph? g = none) : Effect m g (m.note (.skipped g)) none
  | turn (glyph : g = Instruction.reverse.glyph) :
      Effect m g { m with direction := m.direction.opposite } none
  | erase (glyph : g = Instruction.erase.glyph) :
      Effect m g
        (if m.options.eraseMovesPointer then skipTicks m.cell.toNat m
          else { skipTicks m.cell.toNat m with ip := m.ip }) none
  | leap (glyph : g = Instruction.jump.glyph) :
      Effect m g { m with ip := wrap (m.ip + m.stride m.cell) } none
  | wait (glyph : g = Instruction.wait.glyph) :
      Effect m g
        { m with
          schedule :=
            Redirect.after m.cell.toNat (wrap (m.ip + m.direction.delta)) false :: m.schedule }
        none
  | persist (glyph : g = Instruction.persist.glyph) :
      Effect m g
        { m with
          schedule :=
            Redirect.after (m.cell.toNat + 1) (wrap (m.ip + m.stride m.cell)) true :: m.schedule
          ip := wrap (m.ip + m.stride m.cell) }
        none
  | pass (b : Instruction) (bracket : b.isBracket) (glyph : g = b.glyph)
      (stays : m.takesJump b = false) : Effect m g m none
  | follow (b : Instruction) (bracket : b.isBracket) (glyph : g = b.glyph)
      (jumps : m.takesJump b) (target : Int)
      (lookup : (m.bracketTable b)[m.ip]? = some (some target)) :
      Effect m g { m.note (.jumped m.ip target) with ip := target } none
  | unmatched (b : Instruction) (bracket : b.isBracket) (glyph : g = b.glyph)
      (jumps : m.takesJump b) (lookup : (m.bracketTable b)[m.ip]? = some none) :
      Effect m g m (some (.paradox (.unmatched g m.ip m.direction)))
  | unfiled (b : Instruction) (bracket : b.isBracket) (glyph : g = b.glyph)
      (lookup : (m.bracketTable b)[m.ip]? = none) :
      Effect m g m (some (.paradox (.noBracketAt g m.ip)))
  | write (glyph : g = Instruction.io.glyph) (direction : m.direction = .forward) (sink : Sink)
      (written : m.sink.write (encodeCell m.cell) = .ok sink) : Effect m g { m with sink } none
  | unwritten (glyph : g = Instruction.io.glyph) (direction : m.direction = .forward)
      (reason : String) (refused : m.sink.write (encodeCell m.cell) = .error reason) :
      Effect m g m (some (.unwritten reason))
  | read (glyph : g = Instruction.io.glyph) (direction : m.direction = .reverse) (source : Source)
      (line : Bytes) (given : m.source.readLine = (source, .ok line)) :
      Effect m g
        { m.note .awaitingInput with
          source
          tape := ⟨m.tape.cells.setIfInBounds m.mp.toNat (decodeLine line)⟩ }
        none
  | unread (glyph : g = Instruction.io.glyph) (direction : m.direction = .reverse)
      (source : Source) (reason : String) (failed : m.source.readLine = (source, .error reason)) :
      Effect m g { m.note .awaitingInput with source } (some (.unread reason))
  | add (glyph : g = Instruction.plus.glyph) :
      Effect m g
        { m with
          tape := ⟨m.tape.cells.setIfInBounds m.mp.toNat
            (UInt8.ofInt (m.cell.toNat + m.direction.delta))⟩ }
        none
  | move (glyph : g = Instruction.move.glyph) (nonneg : 0 ≤ wrap (m.mp + m.direction.delta)) :
      Effect m g
        { m with
          mp := wrap (m.mp + m.direction.delta)
          tape := m.tape.extend (wrap (m.mp + m.direction.delta)).toNat }
        none
  | below (glyph : g = Instruction.move.glyph) (negative : wrap (m.mp + m.direction.delta) < 0) :
      Effect m g { m with mp := wrap (m.mp + m.direction.delta) }
        (some (.paradox .negativeAddress))

theorem effect_of_bracket (hm : m.OnTape) {b : Instruction} (hb : b.isBracket) :
    m.Effect b.glyph (m.jump b.glyph).1 (m.jump b.glyph).2 := by
  rw [jump_eq hm hb]
  cases hjump : m.takesJump b with
  | false => exact .pass b hb rfl hjump
  | true =>
      rw [if_pos rfl, follow]
      cases hlookup : (m.bracketTable b)[m.ip]? with
      | none => exact .unfiled b hb rfl hlookup
      | some partner =>
          cases partner with
          | none => exact .unmatched b hb rfl hjump hlookup
          | some target => exact .follow b hb rfl hjump target hlookup

/-- Forward, and with room in the sink, the current cell is written. -/
theorem execute_write (hm : m.OnTape) (hdirection : m.direction = .forward)
    (hroom : m.sink.room = none) :
    m.execute Instruction.io.glyph =
      ({ m with sink := { m.sink with written := encodeCell m.cell :: m.sink.written } },
        none) := by
  rw [execute, Instruction.ofGlyph?_glyph]
  simp only [exchange, hdirection, withCell_eq hm, Sink.write, hroom]

theorem effect_of_exchange (hm : m.OnTape) :
    m.Effect Instruction.io.glyph m.exchange.1 m.exchange.2 := by
  unfold exchange
  split
  · rename_i hdirection
    rw [withCell_eq hm]
    cases hwrite : m.sink.write (encodeCell m.cell) with
    | ok sink => exact .write rfl hdirection sink hwrite
    | error reason => exact .unwritten rfl hdirection reason hwrite
  · rename_i hdirection
    simp only
    split
    · rename_i source reason hfailed
      rw [note_source] at hfailed
      exact .unread rfl hdirection source reason hfailed
    · rename_i source line hgiven
      rw [note_source] at hgiven
      have hwrite : (m.note .awaitingInput).tape.write? (m.note .awaitingInput).mp (decodeLine line)
          = some ⟨m.tape.cells.setIfInBounds m.mp.toNat (decodeLine line)⟩ := by
        rw [note_tape, note_mp, ← Tape.write?_of_lt hm.toNat_lt, hm.toNat_eq]
      rw [hwrite]
      exact .read rfl hdirection source line hgiven

/-- **Every byte has one of these effects.** -/
theorem effect_of_execute (hm : m.OnTape) (g : UInt8) :
    m.Effect g (m.execute g).1 (m.execute g).2 := by
  cases hg : Instruction.ofGlyph? g with
  | none =>
      rw [execute, hg]
      exact .comment hg
  | some i =>
      obtain rfl : g = i.glyph := Instruction.ofGlyph?_eq_some_iff.mp hg
      by_cases hb : i.isBracket
      · rw [execute_bracket hb]
        exact effect_of_bracket hm hb
      · rw [execute, hg]
        cases i with
        | reverse => exact .turn rfl
        | erase =>
            simp only [withCell_eq hm]
            exact .erase rfl
        | jump =>
            simp only [withCell_eq hm]
            exact .leap rfl
        | wait =>
            simp only [withCell_eq hm]
            exact .wait rfl
        | persist =>
            simp only [withCell_eq hm, Arithmetic.wrapping_reduce, wrap_add_one]
            exact .persist rfl
        | io => exact effect_of_exchange hm
        | plus =>
            -- There is a cell to count up or down.
            rw [← hm.toNat_eq, Tape.add?_of_lt hm.toNat_lt]
            exact .add rfl
        | move =>
            simp only [Tape.reach?]
            split
            · exact .below rfl ‹_›
            · exact .move rfl (Int.not_lt.mp ‹_›)
        | opener => exact absurd rfl hb
        | closer => exact absurd rfl hb

theorem effect_of_eq {fault? : Option Fault} (hm : m.OnTape) (h : m.execute g = (m', fault?)) :
    m.Effect g m' fault? := by
  have heffect := effect_of_execute hm g
  rw [h] at heffect
  exact heffect

/-! ### What a byte that succeeds does -/

/--
What executing the byte `g` does to the instruction pointer, the direction and the schedule
when it succeeds.
-/
inductive Course (m : Machine) (g : UInt8) (m' : Machine) : Prop where
  /-- Input, output, cells, moves, comments, and brackets that do not jump. -/
  | stay (ip : m'.ip = m.ip) (direction : m'.direction = m.direction)
      (schedule : m'.schedule = m.schedule)
  | turn (glyph : g = Instruction.reverse.glyph) (ip : m'.ip = m.ip)
      (direction : m'.direction = m.direction.opposite) (schedule : m'.schedule = m.schedule)
  | erase (glyph : g = Instruction.erase.glyph)
      (ip : m'.ip =
        if m.options.eraseMovesPointer then (skipTicks m.cell.toNat m).ip else m.ip)
      (direction : m'.direction = m.direction)
      (schedule : m'.schedule = (skipTicks m.cell.toNat m).schedule)
  | leap (glyph : g = Instruction.jump.glyph) (ip : m'.ip = wrap (m.ip + m.stride m.cell))
      (direction : m'.direction = m.direction) (schedule : m'.schedule = m.schedule)
  | wait (glyph : g = Instruction.wait.glyph) (ip : m'.ip = m.ip)
      (direction : m'.direction = m.direction)
      (schedule : m'.schedule =
        Redirect.after m.cell.toNat (wrap (m.ip + m.direction.delta)) false :: m.schedule)
  | persist (glyph : g = Instruction.persist.glyph) (ip : m'.ip = wrap (m.ip + m.stride m.cell))
      (direction : m'.direction = m.direction)
      (schedule : m'.schedule = Redirect.after (m.cell.toNat + 1) m'.ip true :: m.schedule)
  | follow (b : Instruction) (bracket : b.isBracket) (glyph : g = b.glyph)
      (ip : (m.bracketTable b)[m.ip]? = some (some m'.ip))
      (direction : m'.direction = m.direction) (schedule : m'.schedule = m.schedule)

/-- A byte that succeeds takes one of these courses. -/
theorem course_of_execute (hm : m.OnTape) (h : m.execute g = (m', none)) : m.Course g m' := by
  cases effect_of_eq hm h with
  | comment unknown => exact .stay (by simp) (by simp) (by simp)
  | turn glyph => exact .turn glyph rfl rfl rfl
  | erase glyph =>
      refine .erase glyph ?_ ?_ ?_
      · split <;> rfl
      · split <;> simp
      · split <;> rfl
  | leap glyph => exact .leap glyph rfl rfl rfl
  | wait glyph => exact .wait glyph rfl rfl rfl
  | persist glyph => exact .persist glyph rfl rfl rfl
  | pass b bracket glyph stays => exact .stay rfl rfl rfl
  | follow b bracket glyph jumps target lookup =>
      exact .follow b bracket glyph lookup (by simp) (by simp)
  | write glyph direction sink written => exact .stay rfl rfl rfl
  | read glyph direction source line given => exact .stay (by simp) (by simp) (by simp)
  | add glyph => exact .stay rfl rfl rfl
  | move glyph nonneg => exact .stay rfl rfl rfl

/-- What executing the byte `g` does to the memory when it succeeds. -/
inductive Handling (m : Machine) (g : UInt8) (m' : Machine) : Prop where
  | keep (mp : m'.mp = m.mp) (tape : m'.tape = m.tape)
  | put (v : UInt8) (mp : m'.mp = m.mp)
      (tape : m'.tape = ⟨m.tape.cells.setIfInBounds m.mp.toNat v⟩)
  | move (glyph : g = Instruction.move.glyph) (mp : m'.mp = wrap (m.mp + m.direction.delta))
      (nonneg : 0 ≤ m'.mp) (tape : m'.tape = m.tape.extend m'.mp.toNat)

/-- A byte that succeeds handles the memory in one of these ways. -/
theorem handling_of_execute (hm : m.OnTape) (h : m.execute g = (m', none)) : m.Handling g m' := by
  cases effect_of_eq hm h with
  | comment unknown => exact .keep (by simp) (by simp)
  | turn glyph => exact .keep rfl rfl
  | erase glyph => split <;> exact .keep (by simp) (by simp)
  | leap glyph => exact .keep rfl rfl
  | wait glyph => exact .keep rfl rfl
  | persist glyph => exact .keep rfl rfl
  | pass b bracket glyph stays => exact .keep rfl rfl
  | follow b bracket glyph jumps target lookup => exact .keep (by simp) (by simp)
  | write glyph direction sink written => exact .keep rfl rfl
  | read glyph direction source line given => exact .put _ (by simp) rfl
  | add glyph => exact .put _ rfl rfl
  | move glyph nonneg => exact .move glyph rfl nonneg rfl

/-- A byte that succeeds leaves a cell under the memory pointer. -/
theorem execute_onTape (hm : m.OnTape) (h : m.execute g = (m', none)) : m'.OnTape := by
  cases handling_of_execute hm h with
  | keep mp tape =>
      rw [OnTape, mp, tape]
      exact hm
  | put v mp tape =>
      rw [OnTape, mp, tape]
      simpa [OnTape, Tape.size] using hm
  | move glyph mp nonneg tape =>
      refine ⟨nonneg, ?_⟩
      rw [tape, Tape.size_extend]
      omega

/-! ### Why a byte fails -/

/-- What a byte that fails leaves alone. -/
structure Spared (m m' : Machine) : Prop where
  ip : m'.ip = m.ip
  direction : m'.direction = m.direction
  tape : m'.tape = m.tape

/-- Why executing the byte `g` fails. -/
inductive Upset (m : Machine) (g : UInt8) (m' : Machine) : Fault → Prop where
  | move (glyph : g = Instruction.move.glyph) (mp : m'.mp = wrap (m.mp + m.direction.delta))
      (negative : m'.mp < 0) : Upset m g m' (.paradox .negativeAddress)
  | unfiled (b : Instruction) (bracket : b.isBracket) (glyph : g = b.glyph)
      (lookup : (m.bracketTable b)[m.ip]? = none) :
      Upset m g m' (.paradox (.noBracketAt g m.ip))
  | unmatched (b : Instruction) (bracket : b.isBracket) (glyph : g = b.glyph)
      (jumps : m.takesJump b) (lookup : (m.bracketTable b)[m.ip]? = some none) :
      Upset m g m' (.paradox (.unmatched g m.ip m.direction))
  | unwritten (reason : String) (glyph : g = Instruction.io.glyph)
      (direction : m.direction = .forward)
      (refused : m.sink.write (encodeCell m.cell) = .error reason) :
      Upset m g m' (.unwritten reason)
  | unread (reason : String) (glyph : g = Instruction.io.glyph)
      (direction : m.direction = .reverse) (failed : m.source.readLine.2 = .error reason) :
      Upset m g m' (.unread reason)

/-- A byte that fails does so for one of these reasons. -/
theorem upset_of_execute (hm : m.OnTape) {fault : Fault} (h : m.execute g = (m', some fault)) :
    m.Upset g m' fault ∧ m.Spared m' := by
  cases effect_of_eq hm h with
  | unmatched b bracket glyph jumps lookup =>
      exact ⟨.unmatched b bracket glyph jumps lookup, rfl, rfl, rfl⟩
  | unfiled b bracket glyph lookup => exact ⟨.unfiled b bracket glyph lookup, rfl, rfl, rfl⟩
  | unwritten glyph direction reason refused =>
      exact ⟨.unwritten reason glyph direction refused, rfl, rfl, rfl⟩
  | unread glyph direction source reason failed =>
      exact ⟨.unread reason glyph direction (by rw [failed]), by simp, by simp, by simp⟩
  | below glyph negative => exact ⟨.move glyph rfl negative, rfl, rfl, rfl⟩

/-! ### Moving on -/

/-- The place the pointer moves on to. -/
def next (m : Machine) : Int :=
  wrap (m.ip + m.direction.delta)

/-- Whether an index lies past the end of a program of `size` bytes that one travels towards. -/
def PastExit (size : Nat) : Direction → Int → Prop
  | .forward, i => size ≤ i
  | .reverse, i => i < 0

/-- Where a machine may arrive when it moves on. -/
inductive Arrival (m : Machine) : Machine → Prop where
  | inside (lo : 0 ≤ m.next) (hi : m.next < m.image.size) : Arrival m { m with ip := m.next }
  | exit (past : PastExit m.image.size m.direction m.next) :
      Arrival m { m with ip := m.next, status := .halted }
  | beforeStart (direction : m.direction = .forward) (negative : m.next < 0) :
      Arrival m (fail { m with ip := m.next } (.paradox .beforeStart))
  | pastEnd (direction : m.direction = .reverse) (past : m.image.size ≤ m.next) :
      Arrival m (fail { m with ip := m.next } (.paradox .pastEnd))

theorem arrival_of_moveOn (m : Machine) : m.Arrival m.moveOn := by
  have himage : image { m with ip := m.next } = m.image := rfl
  have hnext : wrap (m.ip + m.direction.delta) = m.next := rfl
  simp only [moveOn, Arithmetic.wrapping_reduce, hnext]
  rw [staysInside, himage]
  cases hd : m.direction with
  | forward =>
      by_cases hneg : m.next < 0
      · simp only [if_pos hneg]
        exact hd ▸ .beforeStart hd hneg
      · by_cases hin : m.next < m.image.size
        · simp only [if_neg hneg, hin, decide_true]
          exact hd ▸ .inside (by omega) hin
        · simp only [if_neg hneg, hin, decide_false]
          exact hd ▸ .exit (by rw [hd]; exact Int.not_lt.mp hin)
  | reverse =>
      by_cases hin : m.next < m.image.size
      · by_cases hneg : 0 ≤ m.next
        · simp only [if_pos hin, hneg, decide_true]
          exact hd ▸ .inside hneg hin
        · simp only [if_pos hin, hneg, decide_false]
          exact hd ▸ .exit (by rw [hd]; exact Int.not_le.mp hneg)
      · simp only [if_neg hin]
        exact hd ▸ .pastEnd hd (Int.not_lt.mp hin)

/-- Moving on changes the pointer and the status, and nothing else. -/
theorem exists_moveOn (m : Machine) : ∃ status, m.moveOn = { m with ip := m.next, status } := by
  have harrival := arrival_of_moveOn m
  generalize m.moveOn = m' at harrival ⊢
  cases harrival with
  | inside lo hi => exact ⟨m.status, rfl⟩
  | exit past => exact ⟨.halted, rfl⟩
  | beforeStart direction negative => exact ⟨_, rfl⟩
  | pastEnd direction past => exact ⟨_, rfl⟩

/-- A step leaves what its byte has made of the machine, but for the pointer and the status. -/
theorem exists_execute_of_step (hrunning : m.status = .running) :
    ∃ m' fault? ip status, m.poised.execute m.dispatched = (m', fault?) ∧
      m.step = { m' with ip, status } := by
  rw [step_of_running hrunning]
  cases hexec : m.poised.execute m.dispatched with
  | mk m' fault? =>
      cases fault? with
      | some fault => exact ⟨m', some fault, m'.ip, _, rfl, rfl⟩
      | none =>
          obtain ⟨status, hmove⟩ := exists_moveOn m'
          exact ⟨m', none, m'.next, status, rfl, hmove⟩

/-- A step after which the machine still runs has executed its byte and found the next place. -/
theorem exists_execute_of_running (hrunning : m.status = .running)
    (hstep : m.step.status = .running) :
    ∃ m', m.poised.execute m.dispatched = (m', none) ∧ m.step = { m' with ip := m'.next } ∧
      0 ≤ m'.next ∧ m'.next < m'.image.size := by
  rw [step_of_running hrunning] at hstep ⊢
  cases hexec : m.poised.execute m.dispatched with
  | mk m' fault? =>
      rw [hexec] at hstep
      cases fault? with
      | some fault => simp [fail] at hstep
      | none =>
          refine ⟨m', rfl, ?_⟩
          have harrival := arrival_of_moveOn m'
          simp only [goOn_done] at hstep ⊢
          generalize m'.moveOn = m'' at harrival hstep ⊢
          cases harrival with
          | inside lo hi => exact ⟨rfl, lo, hi⟩
          | exit past => simp at hstep
          | beforeStart direction negative => simp [fail] at hstep
          | pastEnd direction past => simp [fail] at hstep

/-! ### What no byte changes -/

/-- The program, the options and the status are the same. -/
structure Fixed (m m' : Machine) : Prop where
  program : m'.program = m.program
  options : m'.options = m.options
  status : m'.status = m.status

/-- No byte changes the program, the options or the status. -/
theorem execute_fixed (hm : m.OnTape) {fault? : Option Fault} (h : m.execute g = (m', fault?)) :
    m.Fixed m' := by
  cases effect_of_eq hm h with
  | comment _ | follow _ _ _ _ _ _ | read _ _ _ _ _ | unread _ _ _ _ _ => constructor <;> simp
  | erase _ => split <;> constructor <;> simp
  | _ => exact ⟨rfl, rfl, rfl⟩

theorem execute_steps (hm : m.OnTape) {fault? : Option Fault} (h : m.execute g = (m', fault?)) :
    m'.steps = m.steps := by
  cases effect_of_eq hm h with
  | comment _ | follow _ _ _ _ _ _ | read _ _ _ _ _ | unread _ _ _ _ _ => simp
  | erase _ => split <;> simp
  | _ => rfl

/-- A running machine counts its step, whatever comes of it. -/
theorem step_steps (hm : m.OnTape) (hrunning : m.status = .running) :
    m.step.steps = m.steps + 1 := by
  have hcell : m.poised.OnTape := by simpa [OnTape] using hm
  obtain ⟨m', fault?, ip, status, hexec, hstep⟩ := exists_execute_of_step hrunning
  calc m.step.steps = m'.steps := by rw [hstep]
    _ = m.poised.steps := execute_steps hcell hexec
    _ = m.steps + 1 := poised_steps m

end Machine

end TimeTape
