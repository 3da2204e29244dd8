/-
What a program reads and what it writes.

In reverse a `.` takes a line of the input, and forward it writes the current cell as a character.
No other instruction touches the source or the sink.  So after any number of steps what is left of
the input are the lines behind those that have been read, one for every `.` that was executed in
reverse, and what has been written are the characters of the cells at those that were executed
forward.  A reader of the output finds these characters again, since no cell is written in a way
that depends on its neighbours.
-/
import TimeTape.Proofs.Limits
import TimeTape.Proofs.Lines

namespace TimeTape.Machine

variable {code : Bytes} {m m' : Machine} {g : UInt8}

/-- Whether the next step reads a line. -/
def reading (m : Machine) : Bool :=
  m.dispatched = Instruction.io.glyph && m.direction = .reverse

/-- Whether the next step writes a cell. -/
def writing (m : Machine) : Bool :=
  m.dispatched = Instruction.io.glyph && m.direction = .forward

/-- A cell as the character with that number. -/
def cellChar (m : Machine) : Char :=
  Char.ofNat m.cell.toNat

theorem toNat_cellChar (m : Machine) : m.cellChar.toNat = m.cell.toNat := by
  have hlt : m.cell.toNat < 256 := m.cell.toNat_lt
  exact Utf8.val_ofNat (Or.inl (by omega))

/-! ### What a step does to source and sink -/

theorem execute_read (hm : m.OnTape) (hdirection : m.direction = .reverse) {source : Source}
    {line : Bytes} (hread : m.source.readLine = (source, .ok line)) :
    m.execute Instruction.io.glyph =
      ({ m.note .awaitingInput with
          source
          tape := ⟨m.tape.cells.setIfInBounds m.mp.toNat (decodeLine line)⟩ }, none) := by
  have hwrite := Tape.write?_of_lt hm.toNat_lt (decodeLine line)
  rw [hm.toNat_eq] at hwrite
  rw [execute, Instruction.ofGlyph?_glyph]
  simp only [exchange, hdirection, note_source, hread, note_tape, note_mp, hwrite, withTape]

theorem execute_source (hm : m.OnTape) {fault? : Option Fault} (h : m.execute g = (m', fault?))
    (hnot : ¬(g = Instruction.io.glyph ∧ m.direction = .reverse)) : m'.source = m.source := by
  cases effect_of_eq hm h with
  | comment _ | follow _ _ _ _ _ _ => simp
  | erase _ => split <;> simp
  | read glyph direction _ _ _ => exact absurd ⟨glyph, direction⟩ hnot
  | unread glyph direction _ _ _ => exact absurd ⟨glyph, direction⟩ hnot
  | _ => rfl

theorem execute_sink (hm : m.OnTape) {fault? : Option Fault} (h : m.execute g = (m', fault?))
    (hnot : ¬(g = Instruction.io.glyph ∧ m.direction = .forward)) : m'.sink = m.sink := by
  cases effect_of_eq hm h with
  | comment _ | follow _ _ _ _ _ _ | read _ _ _ _ _ | unread _ _ _ _ _ => simp
  | erase _ => split <;> simp
  | write glyph direction _ _ => exact absurd ⟨glyph, direction⟩ hnot
  | _ => rfl

/-- A step that reads takes the first line that is left and stores its number in the cell. -/
theorem Inside.step_read (h : Inside code m) (hrunning : m.status = .running)
    (hreading : m.reading = true) (hfailure : m.source.failure = none) :
    (∃ text, m.step.source = { m.source with text } ∧
      Text.lines text = (Text.lines m.source.text).tail) ∧
    m.step.mp = m.mp ∧
    ∀ p, m.step.tape.cell p = if p = m.mp.toNat
      then decodeLine ((Text.lines m.source.text).head?.getD []) else m.tape.cell p := by
  obtain ⟨hglyph, hdirection⟩ : m.dispatched = Instruction.io.glyph ∧ m.direction = .reverse := by
    simpa [reading] using hreading
  obtain ⟨text, hread, hlines⟩ := Source.exists_readLine (s := m.poised.source) (by simpa)
  obtain ⟨m', fault?, ip, status, hexec, hstep⟩ := exists_execute_of_step hrunning
  rw [hglyph, execute_read h.poised.cell (by simpa) hread] at hexec
  obtain ⟨rfl, -⟩ := Prod.mk.inj hexec
  rw [hstep]
  simp only [poised_source] at hlines
  refine ⟨⟨text, by simp, hlines⟩, by simp, ?_⟩
  intro p
  simp only [poised_tape, poised_mp, poised_source, Tape.cell_set h.cell.toNat_lt]

/-- A step that writes adds the character of the cell. -/
theorem Inside.step_write (h : Inside code m) (hrunning : m.status = .running)
    (hwriting : m.writing = true) (hroom : m.sink.room = none) :
    m.step.sink.room = none ∧
      m.step.sink.contents = m.sink.contents ++ String.utf8EncodeChar m.cellChar := by
  obtain ⟨hglyph, hdirection⟩ : m.dispatched = Instruction.io.glyph ∧ m.direction = .forward := by
    simpa [writing] using hwriting
  obtain ⟨m', fault?, ip, status, hexec, hstep⟩ := exists_execute_of_step hrunning
  rw [hglyph, execute_write h.poised.cell (by simpa) (by simpa)] at hexec
  obtain ⟨rfl, -⟩ := Prod.mk.inj hexec
  rw [hstep]
  simp [hroom, Sink.contents, encodeCell, cellChar]

theorem Inside.step_source (h : Inside code m) (hrunning : m.status = .running)
    (hreading : m.reading = false) : m.step.source = m.source := by
  obtain ⟨m', fault?, ip, status, hexec, hstep⟩ := exists_execute_of_step hrunning
  have hnot : ¬(m.dispatched = Instruction.io.glyph ∧ m.poised.direction = .reverse) := by
    simpa [reading] using hreading
  calc m.step.source = m'.source := by rw [hstep]
    _ = m.poised.source := execute_source h.poised.cell hexec hnot
    _ = m.source := m.poised_source

theorem Inside.step_sink (h : Inside code m) (hrunning : m.status = .running)
    (hwriting : m.writing = false) : m.step.sink = m.sink := by
  obtain ⟨m', fault?, ip, status, hexec, hstep⟩ := exists_execute_of_step hrunning
  have hnot : ¬(m.dispatched = Instruction.io.glyph ∧ m.poised.direction = .forward) := by
    simpa [writing] using hwriting
  calc m.step.sink = m'.sink := by rw [hstep]
    _ = m.poised.sink := execute_sink h.poised.cell hexec hnot
    _ = m.sink := m.poised_sink

/-! ### What a run does to them -/

/-- After a history the input has lost one line to each of its machines that was reading. -/
structure Consumed (input : Bytes) (executed : List Machine) (m : Machine) : Prop where
  failure : m.source.failure = none
  lines : Text.lines m.source.text = (Text.lines input).drop (executed.filter reading).length

theorem Consumed.step {input : Bytes} {executed : List Machine} (h : Consumed input executed m)
    (hin : Inside code m) (hrunning : m.status = .running) :
    Consumed input (executed ++ [m]) m.step := by
  have hlength : ((executed ++ [m]).filter reading).length
      = (executed.filter reading).length + ([m].filter reading).length := by
    rw [List.filter_append, List.length_append]
  by_cases hreading : m.reading = true
  · obtain ⟨⟨text, hsource, htext⟩, -, -⟩ := hin.step_read hrunning hreading h.failure
    refine ⟨?_, ?_⟩
    · rw [hsource]
      exact h.failure
    · rw [hlength, hsource, htext, h.lines, List.tail_drop, List.filter_singleton, hreading]
      rfl
  · rw [Bool.not_eq_true] at hreading
    rw [List.filter_singleton, hreading] at hlength
    refine ⟨?_, ?_⟩
    · rw [hin.step_source hrunning hreading]
      exact h.failure
    · rw [hlength, hin.step_source hrunning hreading]
      exact h.lines

theorem consumed_stepMany (code : Bytes) (options : Options) (source : Source) (sink : Sink)
    (hfailure : source.failure = none) (n : Nat) :
    Consumed source.text (history n (start code options source sink))
      (stepMany n (start code options source sink)) := by
  induction n with
  | zero => constructor <;> simp [stepMany, start, history, path, hfailure]
  | succ n ih =>
      rw [stepMany_succ, history_succ]
      by_cases hrunning : (stepMany n (start code options source sink)).status = .running
      · rw [if_pos hrunning]
        exact ih.step ((reached code options source sink n).running hrunning) hrunning
      · rw [if_neg hrunning, List.append_nil, step_of_stopped hrunning]
        exact ih

/-- The `k`-th machine that reads gets the `k`-th line, and stores its number. -/
theorem line_of_reading {options : Options} {source : Source} {sink : Sink}
    (hfailure : source.failure = none) {n k : Nat}
    (h : ((history n (start code options source sink)).filter reading)[k]? = some m) :
    m.source.readLine.2 = .ok ((Text.lines source.text)[k]?.getD []) ∧
      m.step.cell = decodeLine ((Text.lines source.text)[k]?.getD []) := by
  obtain ⟨j, -, rfl, hrunning, hreading, hlength⟩ := exists_of_getElem?_filter_history h
  have hconsumed := consumed_stepMany code options source sink hfailure j
  have hline : (Text.lines (stepMany j (start code options source sink)).source.text).head?
      = (Text.lines source.text)[k]? := by
    rw [hconsumed.lines, hlength, List.head?_drop]
  have hin := (reached code options source sink j).running hrunning
  obtain ⟨-, hmp, hcell⟩ := hin.step_read hrunning hreading hconsumed.failure
  obtain ⟨text, hread, -⟩ := Source.exists_readLine hconsumed.failure
  refine ⟨?_, ?_⟩
  · rw [hread, hline]
  · rw [cell, hmp, hcell, if_pos rfl, hline]

/--
What has been exchanged after a history: the input has lost one line to each of its machines that
was reading, and the output has gained one character from each that was writing.
-/
structure Exchanged (input : Bytes) (sink : Sink) (executed : List Machine) (m : Machine) :
    Prop where
  failure : m.source.failure = none
  lines : Text.lines m.source.text = (Text.lines input).drop (executed.filter reading).length
  room : m.sink.room = none
  contents : m.sink.contents
    = sink.contents ++ (executed.filter writing).flatMap fun m' => String.utf8EncodeChar m'.cellChar

section Start

variable {options : Options} {input : Bytes} {sink : Sink}

theorem Exchanged.step {executed : List Machine} (h : Exchanged input sink executed m)
    (hin : Inside code m) (hrunning : m.status = .running) :
    Exchanged input sink (executed ++ [m]) m.step := by
  have hsource : Consumed input (executed ++ [m]) m.step :=
    Consumed.step ⟨h.failure, h.lines⟩ hin hrunning
  have hsink : m.step.sink.room = none ∧ m.step.sink.contents = sink.contents ++
      ((executed ++ [m]).filter writing).flatMap fun m' => String.utf8EncodeChar m'.cellChar := by
    rw [List.filter_append, List.flatMap_append, ← List.append_assoc, ← h.contents]
    by_cases hwriting : m.writing = true
    · obtain ⟨hroom, hcontents⟩ := hin.step_write hrunning hwriting h.room
      rw [List.filter_singleton, hwriting, cond_true, List.flatMap_singleton]
      exact ⟨hroom, hcontents⟩
    · rw [Bool.not_eq_true] at hwriting
      rw [hin.step_sink hrunning hwriting, List.filter_singleton, hwriting]
      exact ⟨h.room, by simp⟩
  exact ⟨hsource.failure, hsource.lines, hsink.1, hsink.2⟩

theorem exchanged_stepMany (hsink : sink.room = none) (n : Nat) :
    Exchanged input sink (history n (start code options { text := input } sink))
      (stepMany n (start code options { text := input } sink)) := by
  induction n with
  | zero => constructor <;> simp [stepMany, start, history, path, hsink]
  | succ n ih =>
      rw [stepMany_succ, history_succ]
      by_cases hrunning : (stepMany n (start code options { text := input } sink)).status = .running
      · rw [if_pos hrunning]
        exact ih.step ((reached code options _ sink n).running hrunning) hrunning
      · rw [if_neg hrunning, List.append_nil, step_of_stopped hrunning]
        exact ih

end Start

/--
**Lines are read in order, and what is written can be read again.**  Let a program have run for any
number of steps, on an input that does not fail and with a sink that takes everything.

The `k`-th `.` that was executed in reverse has put into the current cell the number that the `k`-th
line of the input stands for, or zero if there is no such line, and has left the other cells as they
were.  No other instruction has touched the input, and what is left of it are the lines that have
not been read.  What has been written are the encodings of the cells at those `.` that were executed
forward, one behind the other.  They are valid UTF-8, and the characters in them are these cells.
-/
theorem lines_in_characters_out (code : Bytes) (options : Options) (input : Bytes) (sink : Sink)
    (hsink : sink.room = none) (n : Nat) :
    let first := start code options { text := input } sink
    let m := stepMany n first
    let executed := history n first
    let reads := executed.filter reading
    let writes := executed.filter writing
    let output := writes.flatMap fun m' => String.utf8EncodeChar m'.cellChar
    (∀ (k : Nat) (m' : Machine), reads[k]? = some m' →
      (∀ v, m'.step.cell = v ↔ Text.Denotes ((Text.lines input)[k]?.getD []) v) ∧
      m'.step.mp = m'.mp ∧ ∀ p, p ≠ m'.mp.toNat → m'.step.tape.cell p = m'.tape.cell p) ∧
    (∀ m' ∈ executed, m'.reading = false → m'.step.source = m'.source) ∧
    m.source.text = ((Text.lines input).drop reads.length).flatten ∧
    m.sink.contents = sink.contents ++ output ∧
    ∃ chars, Utf8.chars? output = some chars ∧
      chars.map Char.toNat = writes.map fun m' => m'.cell.toNat := by
  intro first m executed reads writes output
  have hexchanged : ∀ j, Exchanged input sink (history j first) (stepMany j first) :=
    exchanged_stepMany hsink
  refine ⟨?_, ?_, ?_, (hexchanged n).contents, writes.map cellChar, ?_, ?_⟩
  · intro k m' hm'
    obtain ⟨j, -, rfl, hrunning, hreading, hlength⟩ := exists_of_getElem?_filter_history hm'
    have hin : Inside code (stepMany j first) := (reached code options _ sink j).running hrunning
    obtain ⟨-, hmp, hcell⟩ := hin.step_read hrunning hreading (hexchanged j).failure
    rw [(hexchanged j).lines, hlength, List.head?_drop] at hcell
    refine ⟨?_, hmp, fun p hp => (hcell p).trans (if_neg hp)⟩
    intro v
    rw [Text.denotes_iff, cell, hmp, hcell, if_pos rfl]
    exact eq_comm
  · intro m' hmem hreading
    obtain ⟨hrunning, hin⟩ := (start_reached _ _ _ _).of_mem_history hmem
    exact hin.step_source hrunning hreading
  · rw [← (hexchanged n).lines, Text.flatten_lines]
  · have houtput : output = (writes.map cellChar).flatMap String.utf8EncodeChar := by
      rw [List.flatMap_map]
    rw [houtput, Utf8.chars?_flatMap_utf8EncodeChar]
  · rw [List.map_map]
    exact List.map_congr_left fun m' _ => m'.toNat_cellChar

/--
The program `+JR..R` on a line with `é`, ended by a carriage return and a line feed, and a last one
that is not UTF-8 and not ended at all.  It writes, turns round to read both lines, and turns round
again to write the number of the last.
-/
theorem lines_in_characters_out_turning_twice :
    let first := start [0x2B, 0x4A, 0x52, 0x2E, 0x2E, 0x52] {}
      { text := [0xC3, 0xA9, 0x0D, 0x0A, 0xFF] } {}
    let reads := (history 10 first).filter reading
    (∃ m', reads[0]? = some m' ∧ m'.step.cell = 0xE9) ∧
    (∃ m', reads[1]? = some m' ∧ m'.step.cell = 0xFD) ∧
    (stepMany 10 first).source.text = [] ∧
    (stepMany 10 first).sink.contents = [1, 1, 0xC3, 0xBD, 0xC3, 0xBD] := by
  intro first reads
  obtain ⟨hreads, -, hleft, hwritten, -⟩ :=
    lines_in_characters_out [0x2B, 0x4A, 0x52, 0x2E, 0x2E, 0x52] {}
      [0xC3, 0xA9, 0x0D, 0x0A, 0xFF] {} rfl 10
  refine ⟨?_, ?_, ?_, ?_⟩
  · obtain ⟨m', hm'⟩ := Option.isSome_iff_exists.mp
      (show reads[0]?.isSome = true by decide +kernel)
    have htrimmed : Text.trimLineEnd [0xC3, 0xA9, 0x0D, 0x0A]
        = String.utf8EncodeChar 'é' ++ [] := by
      decide +kernel
    have htrims := Text.trims_trimLineEnd [0xC3, 0xA9, 0x0D, 0x0A]
    rw [htrimmed] at htrims
    exact ⟨m', hm', ((hreads 0 m' hm').1 _).mpr (.character 'é' [] htrims)⟩
  · obtain ⟨m', hm'⟩ := Option.isSome_iff_exists.mp
      (show reads[1]?.isSome = true by decide +kernel)
    refine ⟨m', hm', ((hreads 1 m' hm').1 _).mpr (Text.denotes_iff.mpr ?_)⟩
    decide +kernel
  · rw [hleft]
    decide +kernel
  · rw [hwritten]
    decide +kernel

end TimeTape.Machine
