/-
The engine runs a tree as its author means it.

`Shows` says that a machine stands at some index of the program with the memory and the output
of a store.  One step at a plain byte does to the machine what the byte does to the store.  One
step at a bracket leaves the store alone and goes to where the meaning of the loop continues.  The
pointer is moved on after every jump, so skipping a loop lands behind its closer and going back
lands behind its opener, which is where the body begins.

The two directions are inductions on the tree, with an inner one over the rounds of a loop.  From
the meaning to the engine that is an induction on `Repeats`.  From the engine to the meaning there
is nothing to induct on but the number of steps until the machine halts, which shrinks with every
round.

The length of the text is assumed to be a word, as it is of any text kept in memory.  Nothing is
assumed of the tape, since a run that ends does not travel further than its text is long.
-/
import TimeTape.Proofs.Loops.Travel
import TimeTape.Proofs.Pointers

namespace TimeTape.Loops

open Machine

/-- The machine stands at index `i` of the program with the store `s`. -/
structure Shows (code : Bytes) (options : Options) (m : Machine) (i : Nat) (s : Store) : Prop where
  program : m.program = Program.ofBytes code
  options : m.options = options
  direction : m.direction = .forward
  schedule : m.schedule = []
  ip : m.ip = i
  mp : m.mp = s.mp
  cells : m.tape.cells.toList = s.cells
  room : m.sink.room = none
  output : m.sink.contents = s.output
  status : m.status = if i < code.length then .running else .halted
  inCells : s.mp < s.cells.length
  word : FitsWord s.mp

namespace Shows

variable {code : Bytes} {options : Options} {m m' : Machine} {i j : Nat} {s s' : Store}

theorem onTape (h : Shows code options m i s) : m.OnTape := by
  have hsize : m.tape.size = s.cells.length := by
    rw [← h.cells, Array.length_toList, Tape.size]
  rw [OnTape, h.mp, hsize]
  have := h.inCells
  omega

theorem cell (h : Shows code options m i s) : m.cell = s.cell := by
  rw [Machine.cell, Store.cell, Tape.cell, h.mp, Int.toNat_natCast, ← h.cells]
  simp [Array.getD_eq_getD_getElem?]

theorem running (h : Shows code options m i s) (hi : i < code.length) : m.status = .running := by
  rw [h.status, if_pos hi]

theorem note (h : Shows code options m i s) (e : Event) : Shows code options (m.note e) i s :=
  ⟨by simpa using h.program, by simpa using h.options, by simpa using h.direction,
    by simpa using h.schedule, by simpa using h.ip, by simpa using h.mp, by simpa using h.cells,
    by simpa using h.room, by simpa using h.output, by simpa using h.status, h.inCells, h.word⟩

/-- The pointer may be put anywhere in the program while the machine runs. -/
theorem goTo (h : Shows code options m i s) (hi : i < code.length) (hj : j < code.length) :
    Shows code options { m with ip := j } j s := by
  refine ⟨h.program, h.options, h.direction, h.schedule, rfl, h.mp, h.cells, h.room, h.output, ?_,
    h.inCells, h.word⟩
  rw [if_pos hj]
  exact h.running hi

theorem poised (h : Shows code options m i s) : Shows code options m.poised i s := by
  refine ⟨by simpa using h.program, by simpa using h.options, by simpa using h.direction, ?_, ?_,
    by simpa using h.mp, by simpa using h.cells, by simpa using h.room, by simpa using h.output,
    by simpa using h.status, h.inCells, h.word⟩
  · rw [poised_schedule, h.schedule]
    rfl
  · rw [poised_ip, h.schedule]
    exact h.ip

theorem glyphAt (h : Shows code options m i s) {b : UInt8} (hb : code[i]? = some b) :
    m.image.glyphAt m.ip = b := by
  have hlt : i < code.length := lt_of_byte hb
  have htext : code[(i : Int).toNat]? = some (((Program.ofBytes code).image .forward).glyphAt i) :=
    Program.getElem?_text (d := .forward) (by omega) (by omega)
  rw [Int.toNat_natCast] at htext
  rw [image, h.program, h.direction, h.ip]
  exact Option.some.inj (htext.symm.trans hb)

theorem dispatched (h : Shows code options m i s) {b : UInt8} (hb : code[i]? = some b) :
    m.dispatched = b := by
  rw [dispatched_eq, ← poised_image]
  exact h.poised.glyphAt hb

/-- Moving on goes to the next index, where a machine at the end of the program has halted. -/
theorem moveOn (h : Shows code options m i s) (hi : i < code.length)
    (hcode : FitsWord code.length) : Shows code options m.moveOn (i + 1) s := by
  have hsize := size_image h.program
  have hnext : m.next = ((i + 1 : Nat) : Int) := by
    obtain ⟨-, hword⟩ := hcode
    rw [next, h.ip, h.direction, Direction.delta, wrap_of_fits ⟨by omega, by omega⟩]
    omega
  have harrival := arrival_of_moveOn m
  generalize m.moveOn = m' at harrival ⊢
  cases harrival with
  | inside lo hi' =>
      have hlt : i + 1 < code.length := by omega
      refine ⟨h.program, h.options, h.direction, h.schedule, hnext, h.mp, h.cells, h.room, h.output,
        ?_, h.inCells, h.word⟩
      rw [if_pos hlt]
      exact h.running hi
  | exit past =>
      rw [h.direction, hnext, hsize] at past
      have hge : ¬i + 1 < code.length := by
        have hle : (code.length : Int) ≤ ((i + 1 : Nat) : Int) := past
        omega
      refine ⟨h.program, h.options, h.direction, h.schedule, hnext, h.mp, h.cells, h.room, h.output,
        ?_, h.inCells, h.word⟩
      rw [if_neg hge]
  | beforeStart direction negative => omega
  | pastEnd direction past => exact absurd (h.direction.symm.trans direction) (by simp)

/-- A step whose byte leaves the machine at `j` ends behind `j`. -/
theorem step_of_execute (h : Shows code options m i s) (hcode : FitsWord code.length) {b : UInt8}
    (hb : code[i]? = some b) (hexec : m.poised.execute b = (m', none))
    (h' : Shows code options m' j s') (hj : j < code.length) :
    Shows code options m.step (j + 1) s' := by
  have hi : i < code.length := lt_of_byte hb
  rw [step_of_running (h.running hi), h.dispatched hb, hexec]
  exact h'.moveOn hj hcode

/-! ### Plain bytes -/

theorem execute_plus (h : Shows code options m i s) :
    ∃ m', m.execute Instruction.plus.glyph = (m', none) ∧
      Shows code options m' i (s.after Instruction.plus.glyph) := by
  have hadd := Tape.add?_of_lt h.onTape.toNat_lt 1
  rw [h.onTape.toNat_eq] at hadd
  have hexec : m.execute Instruction.plus.glyph = m.withTape (m.tape.add? m.mp 1) := by
    rw [execute, Instruction.ofGlyph?_glyph, h.direction]
    rfl
  rw [hadd] at hexec
  refine ⟨_, hexec, ?_⟩
  have hafter : s.after Instruction.plus.glyph
      = { s with cells := s.cells.set s.mp (s.cell + 1) } := by
    rw [Store.after, if_pos rfl]
  have hvalue : UInt8.ofInt ((m.tape.cell m.mp.toNat).toNat + 1) = s.cell + 1 := by
    rw [← h.cell, Machine.cell]
    apply UInt8.toNat_inj.mp
    simp [UInt8.ofInt]
    omega
  rw [hafter]
  refine ⟨h.program, h.options, h.direction, h.schedule, h.ip, h.mp, ?_, h.room, h.output, h.status,
    ?_, h.word⟩
  · show (m.tape.cells.setIfInBounds m.mp.toNat _).toList = s.cells.set s.mp (s.cell + 1)
    rw [Array.toList_setIfInBounds, h.cells, hvalue, h.mp, Int.toNat_natCast]
  · show s.mp < (s.cells.set s.mp (s.cell + 1)).length
    rw [List.length_set]
    exact h.inCells

theorem execute_move (h : Shows code options m i s) (hword : FitsWord (s.mp + 1 : Nat)) :
    ∃ m', m.execute Instruction.move.glyph = (m', none) ∧
      Shows code options m' i (s.after Instruction.move.glyph) := by
  have hmp : wrap (m.mp + m.direction.delta) = ((s.mp + 1 : Nat) : Int) := by
    rw [h.mp, h.direction, Direction.delta, ← wrap_of_fits hword]
    rfl
  have hexec : m.execute Instruction.move.glyph
      = ({ m with mp := ((s.mp + 1 : Nat) : Int), tape := m.tape.extend (s.mp + 1) }, none) := by
    rw [execute, Instruction.ofGlyph?_glyph]
    simp only [Arithmetic.wrapping_reduce, hmp, Tape.reach?,
      if_neg (show ¬((s.mp + 1 : Nat) : Int) < 0 by omega), Int.toNat_natCast, withTape]
  refine ⟨_, hexec, ?_⟩
  have hafter : s.after Instruction.move.glyph
      = { s with
          mp := s.mp + 1
          cells := if s.mp + 1 < s.cells.length then s.cells else s.cells ++ [0] } := by
    rw [Store.after, if_neg (by decide), if_pos rfl]
  have hsize : m.tape.cells.size = s.cells.length := by
    rw [← h.cells, Array.length_toList]
  have hin := h.inCells
  rw [hafter]
  refine ⟨h.program, h.options, h.direction, h.schedule, h.ip, rfl, ?_, h.room, h.output, h.status,
    ?_, hword⟩
  · show (m.tape.cells ++ Array.replicate (s.mp + 1 + 1 - m.tape.cells.size) 0).toList = _
    rw [Array.toList_append, Array.toList_replicate, h.cells, hsize]
    by_cases hlt : s.mp + 1 < s.cells.length
    · rw [if_pos hlt, show s.mp + 1 + 1 - s.cells.length = 0 by omega]
      simp
    · rw [if_neg hlt, show s.mp + 1 + 1 - s.cells.length = 1 by omega]
      rfl
  · show s.mp + 1 < (if s.mp + 1 < s.cells.length then s.cells else s.cells ++ [0]).length
    split
    · assumption
    · rw [List.length_append, List.length_singleton]
      omega

theorem execute_io (h : Shows code options m i s) :
    ∃ m', m.execute Instruction.io.glyph = (m', none) ∧
      Shows code options m' i (s.after Instruction.io.glyph) := by
  refine ⟨_, execute_write h.onTape h.direction h.room, ?_⟩
  have hafter : s.after Instruction.io.glyph
      = { s with output := s.output ++ String.utf8EncodeChar (Char.ofNat s.cell.toNat) } := by
    rw [Store.after, if_neg (by decide), if_neg (by decide), if_pos rfl]
  rw [hafter]
  refine ⟨h.program, h.options, h.direction, h.schedule, h.ip, h.mp, h.cells, h.room, ?_, h.status,
    h.inCells, h.word⟩
  show (encodeCell m.cell :: m.sink.written).reverse.flatten = _
  rw [List.reverse_cons, List.flatten_append, ← h.output, ← h.cell]
  simp [Sink.contents, encodeCell]

theorem execute_comment (h : Shows code options m i s) {b : UInt8}
    (hb : Instruction.ofGlyph? b = none) :
    ∃ m', m.execute b = (m', none) ∧ Shows code options m' i (s.after b) := by
  have hne : ∀ instruction : Instruction, b ≠ instruction.glyph := by
    rintro instruction rfl
    rw [Instruction.ofGlyph?_glyph] at hb
    exact absurd hb (by simp)
  have hafter : s.after b = s := by
    rw [Store.after, if_neg (hne _), if_neg (hne _), if_neg (hne _)]
  refine ⟨m.note (.skipped b), by rw [execute, hb], ?_⟩
  rw [hafter]
  exact h.note _

/-- A plain byte does to the machine what it does to the store. -/
theorem execute_plain (h : Shows code options m i s) (b : PlainByte)
    (hword : FitsWord (s.after b.1).mp) :
    ∃ m', m.execute b.1 = (m', none) ∧ Shows code options m' i (s.after b.1) := by
  cases hg : Instruction.ofGlyph? b.1 with
  | none => exact h.execute_comment hg
  | some instruction =>
      have hglyph := Instruction.ofGlyph?_eq_some_iff.mp hg
      cases instruction with
      | plus =>
          rw [hglyph]
          exact h.execute_plus
      | move =>
          rw [hglyph] at hword ⊢
          exact h.execute_move hword
      | io =>
          rw [hglyph]
          exact h.execute_io
      | _ => exact absurd hglyph (b.2 _ (by simp [leaping]))

theorem step_plain (h : Shows code options m i s) (hcode : FitsWord code.length) {b : PlainByte}
    (hb : code[i]? = some b.1) (hword : FitsWord (s.after b.1).mp) :
    Shows code options m.step (i + 1) (s.after b.1) := by
  obtain ⟨m', hexec, h'⟩ := h.poised.execute_plain b hword
  exact h.step_of_execute hcode hb hexec h' (lt_of_byte hb)

/-- A move for which there is no word left makes the machine fail. -/
theorem step_overflow (h : Shows code options m i s) {b : PlainByte} (hb : code[i]? = some b.1)
    (hword : ¬FitsWord (s.after b.1).mp) : ∃ f, m.step.status = .failed f := by
  rw [Store.mp_after] at hword
  have hmove : b.1 = Instruction.move.glyph := by
    by_contra hne
    rw [if_neg hne] at hword
    exact hword h.word
  have hlast : s.mp + 1 = 9223372036854775808 := by
    obtain ⟨-, hhi⟩ := h.word
    rw [if_pos hmove] at hword
    by_contra hne
    exact hword ⟨by omega, by omega⟩
  have hmp : wrap (m.poised.mp + m.poised.direction.delta) = -9223372036854775808 := by
    rw [h.poised.mp, h.poised.direction, Direction.delta, wrap_of_ge (by omega) (by omega)]
    omega
  have hi : i < code.length := lt_of_byte hb
  have hexec : m.poised.execute b.1
      = ({ m.poised with mp := -9223372036854775808 }, some (.paradox .negativeAddress)) := by
    rw [hmove, execute, Instruction.ofGlyph?_glyph]
    simp only [Arithmetic.wrapping_reduce, hmp, Tape.reach?, withTape]
    rfl
  rw [step_of_running (h.running hi), h.dispatched hb, hexec]
  exact ⟨_, rfl⟩

/-! ### Brackets -/

/-- A bracket that jumps goes behind its partner. -/
theorem step_jump (h : Shows code options m i s) (hcode : FitsWord code.length) {b : Instruction}
    (hbracket : b.isBracket) (hb : code[i]? = some b.glyph) (hjump : m.takesJump b = true)
    (hpartner : (m.bracketTable b)[(i : Int)]? = some (some (j : Int))) (hj : j < code.length) :
    Shows code options m.step (j + 1) s := by
  have hp := h.poised
  have hexec : m.poised.execute b.glyph
      = ({ m.poised.note (.jumped m.poised.ip j) with ip := j }, none) := by
    have hjump' : m.poised.takesJump b = true := (m.poised_takesJump b).trans hjump
    have hlookup : (m.poised.bracketTable b)[m.poised.ip]? = some (some (j : Int)) := by
      rw [m.poised_bracketTable, hp.ip]
      exact hpartner
    rw [execute_bracket hbracket, jump_eq hp.onTape hbracket, if_pos hjump', follow, hlookup]
  exact h.step_of_execute hcode hb hexec ((hp.note _).goTo (lt_of_byte hb) hj) hj

/-- A bracket that does not jump is passed. -/
theorem step_pass (h : Shows code options m i s) (hcode : FitsWord code.length) {b : Instruction}
    (hbracket : b.isBracket) (hb : code[i]? = some b.glyph) (hjump : m.takesJump b = false) :
    Shows code options m.step (i + 1) s := by
  have hjump' : m.poised.takesJump b = false := (m.poised_takesJump b).trans hjump
  have hexec : m.poised.execute b.glyph = (m.poised, none) := by
    rw [execute_bracket hbracket, jump_eq h.poised.onTape hbracket, hjump', if_neg (by simp)]
  exact h.step_of_execute hcode hb hexec h.poised (lt_of_byte hb)

theorem takesJump_opener (h : Shows code options m i s) :
    m.takesJump .opener = decide (s.cell = 0) := by
  simp [takesJump, h.cell]

theorem takesJump_closer (h : Shows code options m i s) :
    m.takesJump .closer = goesOn options.repeatOnNonZero s.cell := by
  simp [takesJump, goesOn, h.cell, h.options]

section Loop

variable {body rest : Tree}

theorem step_skip (h : Shows code options m i s) (hcode : FitsWord code.length)
    (hw : WrittenAt code i (.loop body rest)) (hcell : s.cell = 0) :
    Shows code options m.step (i + 1 + body.flatten.length + 1) s := by
  obtain ⟨hopener, -, hcloser, -⟩ := hw.loop
  refine h.step_jump hcode rfl hopener ?_ ?_ (lt_of_byte hcloser)
  · rw [h.takesJump_opener]
    simpa using hcell
  · show m.image.brackets.forward[(i : Int)]? = _
    rw [image, h.program, h.direction]
    exact Pairing.forward_eq_partner_iff.mpr ⟨_, hw.pair, rfl, rfl⟩

theorem step_enter (h : Shows code options m i s) (hcode : FitsWord code.length)
    (hw : WrittenAt code i (.loop body rest)) (hcell : s.cell ≠ 0) :
    Shows code options m.step (i + 1) s := by
  refine h.step_pass hcode (b := .opener) rfl hw.loop.1 ?_
  rw [h.takesJump_opener]
  simpa using hcell

theorem step_repeat (hcode : FitsWord code.length) (hw : WrittenAt code i (.loop body rest))
    (h : Shows code options m (i + 1 + body.flatten.length) s)
    (hgo : goesOn options.repeatOnNonZero s.cell = true) : Shows code options m.step (i + 1) s := by
  obtain ⟨hopener, -, hcloser, -⟩ := hw.loop
  refine h.step_jump hcode rfl hcloser ?_ ?_ (lt_of_byte hopener)
  · rw [h.takesJump_closer]
    exact hgo
  · show m.image.brackets.backward[((i + 1 + body.flatten.length : Nat) : Int)]? = _
    rw [image, h.program, h.direction]
    exact Pairing.backward_eq_partner_iff.mpr ⟨_, hw.pair, rfl, rfl⟩

theorem step_leave (hcode : FitsWord code.length) (hw : WrittenAt code i (.loop body rest))
    (h : Shows code options m (i + 1 + body.flatten.length) s)
    (hstop : goesOn options.repeatOnNonZero s.cell = false) :
    Shows code options m.step (i + 1 + body.flatten.length + 1) s := by
  refine h.step_pass hcode (b := .closer) rfl hw.loop.2.2.1 ?_
  rw [h.takesJump_closer]
  exact hstop

end Loop

end Shows

/-! ### From the meaning to the engine -/

variable {code : Bytes} {options : Options} {onNonZero : Bool}

theorem mp_le_of_repeats {again : UInt8 → Bool} {body : Store → Store → Prop}
    (hbody : ∀ {s s'}, body s s' → s.mp ≤ s'.mp) {s s' : Store} (h : Repeats again body s s') :
    s.mp ≤ s'.mp := by
  induction h with
  | last run stop => exact hbody run
  | more run go rest ih => exact Nat.le_trans (hbody run) ih

/-- The memory pointer never moves back. -/
theorem mp_mono (t : Tree) : ∀ {s s' : Store}, t.Runs onNonZero s s' → s.mp ≤ s'.mp := by
  induction t with
  | done =>
      rintro s s' rfl
      exact Nat.le_refl _
  | byte b rest ih =>
      intro s s' h
      have hrest := ih h
      rw [Store.mp_after] at hrest
      split at hrest <;> omega
  | loop body rest ihBody ihRest =>
      intro s s' h
      rw [Tree.Runs] at h
      split at h
      · exact ihRest h
      · obtain ⟨s₁, hrepeats, hrest⟩ := h
        exact Nat.le_trans (mp_le_of_repeats ihBody hrepeats) (ihRest hrest)

theorem fitsWord_of_le {a b : Nat} (h : FitsWord b) (hle : a ≤ b) : FitsWord a := by
  obtain ⟨-, hhi⟩ := h
  exact ⟨by omega, by omega⟩

/-- If a machine can run the body, it gets through the rounds of a loop to behind the closer. -/
theorem reaches_of_repeats (hcode : FitsWord code.length) {i : Nat} {body rest : Tree}
    (hw : WrittenAt code i (.loop body rest))
    (hbody : ∀ {s s' : Store} {m : Machine}, body.Runs options.repeatOnNonZero s s' →
      FitsWord s'.mp → Shows code options m (i + 1) s →
      ∃ k, Shows code options (stepMany k m) (i + 1 + body.flatten.length) s')
    {s s₁ : Store}
    (h : Repeats (goesOn options.repeatOnNonZero) (body.Runs options.repeatOnNonZero) s s₁) :
    FitsWord s₁.mp → ∀ {m : Machine}, Shows code options m (i + 1) s →
      ∃ k, Shows code options (stepMany k m) (i + 1 + body.flatten.length + 1) s₁ := by
  induction h with
  | last run stop =>
      intro hword m h
      obtain ⟨k, hk⟩ := hbody run hword h
      refine ⟨k + 1, ?_⟩
      rw [stepMany_succ]
      exact Shows.step_leave hcode hw hk stop
  | more run go more ih =>
      intro hword m h
      have hle := mp_le_of_repeats (mp_mono body) more
      obtain ⟨k, hk⟩ := hbody run (fitsWord_of_le hword hle) h
      obtain ⟨l, hl⟩ := ih hword (Shows.step_repeat hcode hw hk go)
      refine ⟨k + 1 + l, ?_⟩
      rw [stepMany_add, stepMany_succ]
      exact hl

/-- If a tree takes the store `s` to `s'`, a machine before its text gets behind it. -/
theorem reaches_of_runs (hcode : FitsWord code.length) (t : Tree) :
    ∀ {i : Nat} {s s' : Store} {m : Machine}, WrittenAt code i t →
      t.Runs options.repeatOnNonZero s s' → FitsWord s'.mp → Shows code options m i s →
      ∃ k, Shows code options (stepMany k m) (i + t.flatten.length) s' := by
  induction t with
  | done =>
      rintro i s s' m - rfl - h
      exact ⟨0, h⟩
  | byte b rest ih =>
      intro i s s' m hw hrun hword h
      obtain ⟨hb, hrest⟩ := hw.byte
      have hstep := h.step_plain hcode hb (fitsWord_of_le hword (mp_mono rest hrun))
      obtain ⟨k, hk⟩ := ih hrest hrun hword hstep
      refine ⟨k + 1, ?_⟩
      rw [Tree.length_flatten_byte]
      exact hk
  | loop body rest ihBody ihRest =>
      intro i s s' m hw hrun hword h
      obtain ⟨-, hbody, -, hrest⟩ := hw.loop
      rw [Tree.length_flatten_loop]
      rw [Tree.Runs] at hrun
      split at hrun
      · obtain ⟨k, hk⟩ := ihRest hrest hrun hword (h.step_skip hcode hw ‹_›)
        exact ⟨k + 1, hk⟩
      · obtain ⟨s₁, hrepeats, hrun⟩ := hrun
        have hword₁ := fitsWord_of_le hword (mp_mono rest hrun)
        obtain ⟨k, hk⟩ := reaches_of_repeats hcode hw (ihBody hbody) hrepeats hword₁
          (h.step_enter hcode hw ‹_›)
        obtain ⟨l, hl⟩ := ihRest hrest hrun hword hk
        refine ⟨k + l + 1, ?_⟩
        show Shows code options (stepMany (k + l) m.step) _ _
        rw [stepMany_add]
        exact hl

/-! ### From the engine to the meaning -/

theorem halts_after {m : Machine} {n k : Nat} (hk : k ≤ n)
    (h : (stepMany n m).status = .halted) : (stepMany (n - k) (stepMany k m)).status = .halted := by
  rw [← stepMany_add, Nat.add_sub_cancel' hk]
  exact h

/-- A machine that is still running has steps to take before it halts. -/
theorem pos_of_halts {m : Machine} {n : Nat} (hrunning : m.status = .running)
    (h : (stepMany n m).status = .halted) : 0 < n := by
  rcases Nat.eq_zero_or_pos n with rfl | hpos
  · exact absurd (hrunning.symm.trans h) (by simp)
  · exact hpos

/-- A machine that halts gets out of a loop it has entered, after rounds of running the body. -/
theorem repeats_of_halts (hcode : FitsWord code.length) {i : Nat} {body rest : Tree}
    (hw : WrittenAt code i (.loop body rest))
    (hbody : ∀ (n : Nat) {s : Store} {m : Machine}, Shows code options m (i + 1) s →
      (stepMany n m).status = .halted →
      ∃ k ≤ n, ∃ s', body.Runs options.repeatOnNonZero s s' ∧
        Shows code options (stepMany k m) (i + 1 + body.flatten.length) s') :
    ∀ (n : Nat) {s : Store} {m : Machine}, Shows code options m (i + 1) s →
      (stepMany n m).status = .halted →
      ∃ k ≤ n, ∃ s₁, Repeats (goesOn options.repeatOnNonZero)
          (body.Runs options.repeatOnNonZero) s s₁ ∧
        Shows code options (stepMany k m) (i + 1 + body.flatten.length + 1) s₁ := by
  intro n
  -- Every round takes a step at least, the one at the closer.
  induction n using Nat.strongRecOn with
  | ind n ih =>
      intro s m h hhalt
      obtain ⟨k, hk, s₁, hrun, hshows⟩ := hbody n h hhalt
      have hrunning := hshows.running (lt_of_byte hw.loop.2.2.1)
      have hpos := pos_of_halts hrunning (halts_after hk hhalt)
      cases hgo : goesOn options.repeatOnNonZero s₁.cell with
      | false =>
          refine ⟨k + 1, by omega, s₁, .last hrun hgo, ?_⟩
          rw [stepMany_succ]
          exact Shows.step_leave hcode hw hshows hgo
      | true =>
          have hback := Shows.step_repeat hcode hw hshows hgo
          rw [← stepMany_succ] at hback
          have hhalt' := halts_after (k := k + 1) (by omega) hhalt
          obtain ⟨l, hl, s₂, hrepeats, hend⟩ := ih (n - (k + 1)) (by omega) hback hhalt'
          refine ⟨k + 1 + l, by omega, s₂, .more hrun hgo hrepeats, ?_⟩
          rw [stepMany_add]
          exact hend

/-- If a machine before the text of a tree halts, it gets behind the text by running the tree. -/
theorem runs_of_halts (hcode : FitsWord code.length) (t : Tree) :
    ∀ (n : Nat) {i : Nat} {s : Store} {m : Machine}, WrittenAt code i t → Shows code options m i s →
      (stepMany n m).status = .halted →
      ∃ k ≤ n, ∃ s', t.Runs options.repeatOnNonZero s s' ∧
        Shows code options (stepMany k m) (i + t.flatten.length) s' := by
  induction t with
  | done =>
      intro n i s m _ h _
      exact ⟨0, by omega, s, rfl, h⟩
  | byte b rest ih =>
      intro n i s m hw h hhalt
      obtain ⟨hb, hrest⟩ := hw.byte
      have hpos := pos_of_halts (h.running (lt_of_byte hb)) hhalt
      have hhalt' := halts_after (k := 1) hpos hhalt
      by_cases hword : FitsWord (s.after b.1).mp
      · obtain ⟨k, hk, s', hrun, hshows⟩ := ih (n - 1) hrest (h.step_plain hcode hb hword) hhalt'
        refine ⟨k + 1, by omega, s', hrun, ?_⟩
        rw [Tree.length_flatten_byte]
        exact hshows
      · -- A machine that has run out of words has failed and does not halt any more.
        obtain ⟨f, hf⟩ := h.step_overflow hb hword
        have hstopped := stepMany_of_stopped (m := m.step) (by rw [hf]; simp) (n - 1)
        replace hhalt' : (stepMany (n - 1) m.step).status = .halted := hhalt'
        rw [hstopped, hf] at hhalt'
        exact absurd hhalt' (by simp)
  | loop body rest ihBody ihRest =>
      intro n i s m hw h hhalt
      obtain ⟨hopener, hbody, hcloser, hrest⟩ := hw.loop
      rw [Tree.length_flatten_loop]
      have hpos := pos_of_halts (h.running (lt_of_byte hopener)) hhalt
      have hhalt' := halts_after (k := 1) hpos hhalt
      by_cases hcell : s.cell = 0
      · obtain ⟨k, hk, s', hrun, hshows⟩ :=
          ihRest (n - 1) hrest (h.step_skip hcode hw hcell) hhalt'
        refine ⟨k + 1, by omega, s', ?_, hshows⟩
        rw [Tree.Runs, if_pos hcell]
        exact hrun
      · obtain ⟨k, hk, s₁, hrepeats, hshows⟩ :=
          repeats_of_halts hcode hw (fun n _ _ => ihBody n hbody) (n - 1)
            (h.step_enter hcode hw hcell) hhalt'
        obtain ⟨l, hl, s', hrun, hend⟩ :=
          ihRest (n - 1 - k) hrest hshows (halts_after hk hhalt')
        refine ⟨k + l + 1, by omega, s', ?_, ?_⟩
        · rw [Tree.Runs, if_neg hcell]
          exact ⟨s₁, hrepeats, hrun⟩
        · show Shows code options (stepMany (k + l) m.step) _ _
          rw [stepMany_add]
          exact hend

/-! ### Whole programs -/

/-- The memory and the output of the machine are those of the store. -/
def Holds (m : Machine) (s : Store) : Prop :=
  m.tape.cells.toList = s.cells ∧ m.mp = s.mp ∧ m.sink.contents = s.output

instance (m : Machine) (s : Store) : Decidable (Holds m s) :=
  inferInstanceAs (Decidable (_ ∧ _ ∧ _))

theorem Holds.unique {m : Machine} {s s' : Store} (h : Holds m s) (h' : Holds m s') : s = s' := by
  obtain ⟨hcells, hmp, houtput⟩ := h
  obtain ⟨hcells', hmp', houtput'⟩ := h'
  obtain ⟨cells, mp, output⟩ := s
  obtain ⟨cells', mp', output'⟩ := s'
  have hsame : mp = mp' := Int.ofNat_inj.mp (hmp.symm.trans hmp')
  rw [Store.mk.injEq]
  exact ⟨hcells.symm.trans hcells', hsame, houtput.symm.trans houtput'⟩

theorem Shows.holds {m : Machine} {i : Nat} {s : Store} (h : Shows code options m i s) :
    Holds m s :=
  ⟨h.cells, h.mp, h.output⟩

theorem shows_start (source : Source) (refusal : String) :
    Shows code options (start code options source { refusal }) 0 .blank := by
  refine ⟨by simp [start], by simp [start], by simp [start], by simp [start], by simp [start],
    by simp [start, Store.blank], by simp [start, Store.blank, Tape.blank], by simp [start],
    by simp [start, Sink.contents, Store.blank], ?_, by simp [Store.blank],
    by simp [Store.blank, FitsWord]⟩
  rw [start_status]
  cases code with
  | nil => rfl
  | cons b rest => rfl

/-- A machine that halts on the text of a tree holds what a run of the tree leaves. -/
theorem exists_runs_of_halted {t : Tree} (source : Source) (refusal : String)
    (hcode : FitsWord t.flatten.length) {n : Nat}
    (h : (stepMany n (start t.flatten options source { refusal })).status = .halted) :
    ∃ s, t.Runs options.repeatOnNonZero .blank s ∧
      Holds (stepMany n (start t.flatten options source { refusal })) s := by
  obtain ⟨k, hk, s, hrun, hshows⟩ :=
    runs_of_halts hcode t n (writtenAt_self t) (shows_start source refusal) h
  rw [Nat.zero_add] at hshows
  have hhalted := hshows.status
  rw [if_neg (Nat.lt_irrefl _)] at hhalted
  -- The machine had already halted when it got behind the text.
  have hstopped := stepMany_of_stopped (by rw [hhalted]; simp) (n - k)
  rw [← stepMany_add, Nat.add_sub_cancel' hk] at hstopped
  refine ⟨s, hrun, ?_⟩
  rw [hstopped]
  exact hshows.holds

/-- A run of a tree makes the machine halt on the text of the tree, with what the run leaves. -/
theorem halts_of_runs {t : Tree} (source : Source) (refusal : String)
    (hcode : FitsWord t.flatten.length) {s : Store}
    (h : t.Runs options.repeatOnNonZero .blank s) :
    ∃ n, (stepMany n (start t.flatten options source { refusal })).status = .halted ∧
      Holds (stepMany n (start t.flatten options source { refusal })) s := by
  obtain ⟨n, hshows⟩ := reaches_of_runs hcode t (writtenAt_self t) h
    (fitsWord_of_le hcode (mp_le_of_runs h)) (shows_start source refusal)
  rw [Nat.zero_add] at hshows
  refine ⟨n, ?_, hshows.holds⟩
  rw [hshows.status, if_neg (Nat.lt_irrefl _)]

/--
**Jumping between brackets is looping.**  Whatever the source and whichever way closers decide,
with a sink that takes all output: a tree run on one zero cell leaves a store exactly if the
machine halts on the text of the tree with that memory and that output, and however long the
machine is stepped, once it has halted it holds what a run of the tree leaves.
-/
theorem runs_iff_halts (t : Tree) (options : Options) (source : Source) (refusal : String)
    (hcode : FitsWord t.flatten.length) :
    (∀ s, t.Runs options.repeatOnNonZero .blank s ↔
      ∃ n, (stepMany n (start t.flatten options source { refusal })).status = .halted ∧
        Holds (stepMany n (start t.flatten options source { refusal })) s) ∧
    (∀ n, (stepMany n (start t.flatten options source { refusal })).status = .halted →
      ∃ s, t.Runs options.repeatOnNonZero .blank s ∧
        Holds (stepMany n (start t.flatten options source { refusal })) s) := by
  refine ⟨fun s => ⟨halts_of_runs source refusal hcode, ?_⟩,
    fun n => exists_runs_of_halted source refusal hcode⟩
  rintro ⟨n, hhalted, hholds⟩
  obtain ⟨s', hrun, hholds'⟩ := exists_runs_of_halted source refusal hcode hhalted
  rw [hholds.unique hholds']
  exact hrun

/-- The program `+{>{.}+.}`: the outer loop is entered, the inner one is passed over. -/
def nested : Tree :=
  .byte ⟨Instruction.plus.glyph, by decide⟩ <|
    .loop (.byte ⟨Instruction.move.glyph, by decide⟩ <|
      .loop (.byte ⟨Instruction.io.glyph, by decide⟩ .done) <|
      .byte ⟨Instruction.plus.glyph, by decide⟩ <|
      .byte ⟨Instruction.io.glyph, by decide⟩ .done) .done

theorem runs_iff_halts_nested :
    FitsWord nested.flatten.length ∧ nested.Runs false .blank ⟨[1, 1], 1, [1]⟩ := by
  have hcode : FitsWord nested.flatten.length := by decide
  refine ⟨hcode, ((runs_iff_halts nested {} {} "" hcode).1 _).mpr ⟨7, ?_, ?_⟩⟩ <;> decide

end TimeTape.Loops
