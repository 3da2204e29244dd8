/-
Running in reverse undoes what running forward did.

A text of `+`, `>` and comments is run up to an `R` behind it and then back.  A byte that is
executed in one direction and then in the other leaves the memory as it was, so on its way back the
machine comes past the same states of the memory, the latest first, and arrives where it began.  For
the same reason it never moves below the first cell: it has been wherever it goes.

`Memory` shows the tape as an endless row of cells, which growing does not change.  How many cells
there are is told apart from it.  They are not given back: the tape stays as long as it has been on
the way out.  What a byte does to the memory differs between the directions in a sign only, so one
lemma about a step serves both passes.
-/
import TimeTape.Proofs.Pointers
import Mathlib.Data.Nat.Init

namespace TimeTape

/-! ### The memory as an endless row -/

/-- The memory pointer, and all cells there could be. -/
structure Memory where
  mp : Int
  cells : Nat → UInt8

/-- The instructions that do more than count and move. -/
def lasting : List Instruction :=
  [.reverse, .erase, .jump, .wait, .persist, .io, .opener, .closer]

/-- A text of `+`, `>` and comments. -/
def Undoable (text : Bytes) : Prop :=
  ∀ i ∈ lasting, i.glyph ∉ text

instance (text : Bytes) : Decidable (Undoable text) :=
  inferInstanceAs (Decidable (∀ i ∈ lasting, i.glyph ∉ text))

namespace Memory

variable {x : Memory} {d : Direction} {g : UInt8}

/-- Zeros, with the pointer at the first of them. -/
def blank : Memory :=
  ⟨0, fun _ => 0⟩

/-- The memory with a step in some direction added to the current cell. -/
def add (d : Direction) (x : Memory) : Memory :=
  { x with cells := fun p =>
      if p = x.mp.toNat then UInt8.ofInt ((x.cells p).toNat + d.delta) else x.cells p }

/-- What a byte that only counts or moves does to the memory. -/
def pass (d : Direction) (g : UInt8) (x : Memory) : Memory :=
  if g = Instruction.plus.glyph then x.add d
  else if g = Instruction.move.glyph then { x with mp := x.mp + d.delta }
  else x

theorem ofInt_add_sub (c : UInt8) (a : Int) :
    UInt8.ofInt ((UInt8.ofInt (c.toNat + a)).toNat + -a) = c := by
  have hc : c.toNat < 256 := c.toNat_lt
  apply UInt8.toNat_inj.mp
  simp only [UInt8.ofInt, UInt8.toNat_ofNat']
  omega

/-- **In the opposite direction a byte undoes what it has done.** -/
theorem pass_opposite (d : Direction) (g : UInt8) (x : Memory) :
    (x.pass d g).pass d.opposite g = x := by
  have hdelta : d.opposite.delta = -d.delta := by cases d <;> rfl
  unfold pass
  split
  · obtain ⟨mp, cells⟩ := x
    simp only [add, hdelta, mk.injEq, true_and]
    funext p
    by_cases hp : p = mp.toNat
    · simp only [if_pos hp, ofInt_add_sub]
    · simp only [if_neg hp]
  · split
    · obtain ⟨mp, cells⟩ := x
      simp only [hdelta, mk.injEq, and_true]
      omega
    · rfl

/-- The memory after a text has been run forward. -/
def after (text : Bytes) : Memory :=
  text.foldl (fun x g => x.pass .forward g) blank

theorem after_concat (text : Bytes) (g : UInt8) :
    after (text ++ [g]) = (after text).pass .forward g := by
  rw [after, List.foldl_concat, after]

theorem after_take_succ (text : Bytes) {k : Nat} (hk : k < text.length) :
    after (text.take (k + 1)) = (after (text.take k)).pass .forward text[k] := by
  rw [← after_concat, List.take_append_getElem hk]

theorem mp_pass (d : Direction) (g : UInt8) (x : Memory) :
    (x.pass d g).mp = if g = Instruction.move.glyph then x.mp + d.delta else x.mp := by
  unfold pass
  split
  · rename_i hplus
    rw [if_neg (by rw [hplus]; decide)]
    rfl
  · split <;> rfl

theorem mp_after (text : Bytes) : (after text).mp = text.count Instruction.move.glyph := by
  induction text using List.reverseRecOn with
  | nil => rfl
  | append_singleton text g ih =>
      rw [after_concat, mp_pass, ih, List.count_append, List.count_singleton]
      by_cases hg : g = Instruction.move.glyph
      · simp [hg, Direction.delta]
      · simp [hg]

end Memory

namespace Machine

variable {first m m' : Machine} {code : Bytes} {d : Direction} {i : Int} {x : Memory} {n : Nat}
  {g : UInt8}

/-- The memory of a machine. -/
def memory (m : Machine) : Memory :=
  ⟨m.mp, m.tape.cell⟩

/-! ### One step in either direction -/

/--
The machine has come from `first` to index `i`, travelling in direction `d`, with the memory `x` on
`n` cells.  It has scheduled nothing, and neither read nor written anything.
-/
structure Stands (first : Machine) (d : Direction) (i : Int) (x : Memory) (n : Nat) (m : Machine) :
    Prop where
  program : m.program = first.program
  source : m.source = first.source
  sink : m.sink = first.sink
  schedule : m.schedule = []
  direction : m.direction = d
  ip : m.ip = i
  memory : m.memory = x
  size : m.tape.size = n
  cell : 0 ≤ x.mp ∧ x.mp < n
  status : m.status = if 0 ≤ i ∧ i < m.image.size then .running else .halted

namespace Stands

theorem onTape (h : Stands first d i x n m) : m.OnTape := by
  have hmp : m.mp = x.mp := congrArg Memory.mp h.memory
  rw [OnTape, hmp, h.size]
  exact h.cell

theorem poised (h : Stands first d i x n m) : Stands first d i x n m.poised := by
  have hmemory : m.poised.memory = m.memory := by simp [Machine.memory]
  refine ⟨by simpa using h.program, by simpa using h.source, by simpa using h.sink, ?_,
    by simpa using h.direction, ?_, hmemory.trans h.memory, by simpa using h.size, h.cell,
    by simpa using h.status⟩
  · rw [poised_schedule, h.schedule]
    rfl
  · rw [poised_ip, h.schedule]
    exact h.ip

theorem running (h : Stands first d i x n m) (hlo : 0 ≤ i) (hhi : i < m.image.size) :
    m.status = .running := by
  rw [h.status, if_pos ⟨hlo, hhi⟩]

/-- A machine whose memory has changed stands at the same index. -/
theorem remember (h : Stands first d i x n m) {mp : Int} {tape : Tape} (hlo : 0 ≤ mp)
    (hhi : mp < tape.size) :
    Stands first d i ⟨mp, tape.cell⟩ tape.size { m with mp, tape } :=
  ⟨h.program, h.source, h.sink, h.schedule, h.direction, h.ip, rfl, rfl, ⟨hlo, hhi⟩, h.status⟩

theorem note (h : Stands first d i x n m) (e : Event) : Stands first d i x n (m.note e) := by
  have hmemory : (m.note e).memory = m.memory := by simp [Machine.memory]
  exact ⟨by simpa using h.program, by simpa using h.source, by simpa using h.sink,
    by simpa using h.schedule, by simpa using h.direction, by simpa using h.ip,
    hmemory.trans h.memory, by simpa using h.size, h.cell, by simpa using h.status⟩

theorem execute_plus (h : Stands first d i x n m) :
    ∃ m', m.execute Instruction.plus.glyph = (m', none) ∧ Stands first d i (x.add d) n m' := by
  obtain rfl : m.memory = x := h.memory
  have hadd := Tape.add?_of_lt h.onTape.toNat_lt m.direction.delta
  rw [h.onTape.toNat_eq] at hadd
  refine ⟨_, by rw [Machine.execute, Instruction.ofGlyph?_glyph, hadd, withTape], ?_⟩
  generalize hv : UInt8.ofInt ((m.tape.cell m.mp.toNat).toNat + m.direction.delta) = v
  have hsize : Tape.size ⟨m.tape.cells.setIfInBounds m.mp.toNat v⟩ = n := by
    rw [← h.size]
    simp [Tape.size]
  have hmemory : m.memory.add d = ⟨m.mp, Tape.cell ⟨m.tape.cells.setIfInBounds m.mp.toNat v⟩⟩ := by
    rw [Memory.add, Machine.memory, Memory.mk.injEq]
    refine ⟨rfl, ?_⟩
    funext p
    rw [Tape.cell_set h.onTape.toNat_lt, ← hv, h.direction]
    by_cases hp : p = m.mp.toNat
    · rw [if_pos hp, if_pos hp, hp]
    · rw [if_neg hp, if_neg hp]
  rw [hmemory, ← hsize]
  exact h.remember h.cell.1 (by rw [hsize]; exact h.cell.2)

theorem execute_move (h : Stands first d i x n m) (hlo : 0 ≤ x.mp + d.delta)
    (hword : FitsWord (x.mp + d.delta)) :
    ∃ m', m.execute Instruction.move.glyph = (m', none) ∧
      Stands first d i { x with mp := x.mp + d.delta } (max n ((x.mp + d.delta).toNat + 1)) m' := by
  obtain rfl : m.memory = x := h.memory
  replace hlo : 0 ≤ m.mp + d.delta := hlo
  have hmp : wrap (m.mp + m.direction.delta) = m.mp + d.delta := by
    rw [h.direction]
    exact wrap_of_fits hword
  have hexec : m.execute Instruction.move.glyph
      = ({ m with mp := m.mp + d.delta, tape := m.tape.extend (m.mp + d.delta).toNat }, none) := by
    rw [Machine.execute, Instruction.ofGlyph?_glyph]
    simp only [Arithmetic.wrapping_reduce, hmp, Tape.reach?, if_neg (Int.not_lt.mpr hlo), withTape]
  refine ⟨_, hexec, ?_⟩
  have hsize : (m.tape.extend (m.mp + d.delta).toNat).size
      = max n ((m.mp + d.delta).toNat + 1) := by
    rw [Tape.size_extend, h.size]
  have hcells : (m.tape.extend (m.mp + d.delta).toNat).cell = m.tape.cell :=
    funext (Tape.cell_extend _ _)
  have hhi : m.mp + d.delta < (m.tape.extend (m.mp + d.delta).toNat).size := by
    rw [hsize]
    omega
  have hmoved := h.remember hlo hhi
  rw [hsize, hcells] at hmoved
  exact hmoved

/-- A byte that only counts or moves is executed, unless it would move below the first cell. -/
theorem execute (h : Stands first d i x n m) (hg : ∀ l ∈ lasting, g ≠ l.glyph)
    (hlo : 0 ≤ (x.pass d g).mp) (hword : FitsWord (x.pass d g).mp) :
    ∃ m', m.execute g = (m', none) ∧
      Stands first d i (x.pass d g) (max n ((x.pass d g).mp.toNat + 1)) m' := by
  have hreach : max n (x.mp.toNat + 1) = n := by
    have := h.cell
    omega
  by_cases hplus : g = Instruction.plus.glyph
  · rw [Memory.pass, if_pos hplus, hplus]
    have hexec := h.execute_plus
    rw [← hreach] at hexec
    exact hexec
  by_cases hmove : g = Instruction.move.glyph
  · rw [Memory.pass, if_neg hplus, if_pos hmove] at hlo hword ⊢
    rw [hmove]
    exact h.execute_move hlo hword
  · rw [Memory.pass, if_neg hplus, if_neg hmove, hreach]
    have hunknown : Instruction.ofGlyph? g = none := by
      cases hl : Instruction.ofGlyph? g with
      | none => rfl
      | some l =>
          have hglyph := Instruction.ofGlyph?_eq_some_iff.mp hl
          cases l with
          | plus => exact absurd hglyph hplus
          | move => exact absurd hglyph hmove
          | _ => exact absurd hglyph (hg _ (by simp [lasting]))
    exact ⟨m.note (.skipped g), by rw [Machine.execute, hunknown], h.note _⟩

/-- Moving on goes one index further, and halts there if that is outside the program. -/
theorem moveOn (h : Stands first d i x n m) (hlo : 0 ≤ i) (hhi : i < m.image.size)
    (hword : FitsWord m.image.size) : Stands first d (i + d.delta) x n m.moveOn := by
  have hnext : m.next = i + d.delta := by
    have hdelta : -1 ≤ d.delta ∧ d.delta ≤ 1 := by cases d <;> decide
    obtain ⟨-, hmax⟩ := hword
    rw [next, h.ip, h.direction]
    exact wrap_of_fits ⟨by omega, by omega⟩
  have harrival := arrival_of_moveOn m
  rw [← hnext]
  generalize m.moveOn = m' at harrival ⊢
  cases harrival with
  | inside lo hi =>
      refine ⟨h.program, h.source, h.sink, h.schedule, h.direction, rfl, h.memory, h.size,
        h.cell, ?_⟩
      exact (h.running hlo hhi).trans (if_pos ⟨lo, hi⟩).symm
  | exit past =>
      refine ⟨h.program, h.source, h.sink, h.schedule, h.direction, rfl, h.memory, h.size,
        h.cell, ?_⟩
      exact (if_neg past.outside).symm
  | beforeStart direction negative =>
      rw [h.direction] at direction
      rw [hnext, direction, Direction.delta] at negative
      omega
  | pastEnd direction past =>
      rw [h.direction] at direction
      rw [hnext, direction, Direction.delta] at past
      omega

theorem dispatched (h : Stands first d i x n m) (hfirst : first.program = Program.ofBytes code)
    (hlo : 0 ≤ i) (hg : (Program.text code d)[i.toNat]? = some g) : m.dispatched = g := by
  have hlt : i < code.length := by
    have hnat := (List.getElem?_eq_some_iff.mp hg).1
    rw [Program.length_text] at hnat
    omega
  rw [dispatched_eq, h.poised.ip, image, h.program, hfirst, h.direction]
  exact Option.some.inj ((Program.getElem?_text hlo hlt).symm.trans hg)

theorem image_size (h : Stands first d i x n m) (hfirst : first.program = Program.ofBytes code) :
    m.image.size = code.length :=
  size_image (h.program.trans hfirst)

/-- A step whose byte succeeds at index `i` ends one index further, in the direction it has then. -/
theorem step_of_execute (h : Stands first d i x n m) (hfirst : first.program = Program.ofBytes code)
    (hword : FitsWord code.length) (hlo : 0 ≤ i) (hhi : i < code.length) {d' : Direction}
    {x' : Memory} {n' : Nat} (hexec : m.poised.execute m.dispatched = (m', none))
    (h' : Stands first d' i x' n' m') : Stands first d' (i + d'.delta) x' n' m.step := by
  have hsize := h.image_size hfirst
  have hsize' := h'.image_size hfirst
  rw [step_of_running (h.running hlo (hsize ▸ hhi)), hexec]
  exact h'.moveOn hlo (hsize' ▸ hhi) (hsize' ▸ hword)

/-- A byte that only counts or moves reads the same in both directions. -/
theorem step_pass (h : Stands first d i x n m) (hfirst : first.program = Program.ofBytes code)
    (hword : FitsWord code.length) (hlo : 0 ≤ i) (hb : code[i.toNat]? = some g)
    (hg : ∀ l ∈ lasting, g ≠ l.glyph) (hmp : 0 ≤ (x.pass d g).mp)
    (hfits : FitsWord (x.pass d g).mp) :
    Stands first d (i + d.delta) (x.pass d g) (max n ((x.pass d g).mp.toNat + 1)) m.step := by
  have hhi : i < code.length := by
    have hnat := (List.getElem?_eq_some_iff.mp hb).1
    omega
  have htext : (Program.text code d)[i.toNat]? = some g := by
    cases d with
    | forward => exact hb
    | reverse =>
        have hmirror : mirrorGlyph g = g := by
          rw [mirrorGlyph, if_neg (hg .opener (by simp [lasting])),
            if_neg (hg .closer (by simp [lasting]))]
        rw [Program.text, mirror, List.getElem?_map, hb, Option.map_some, hmirror]
  obtain ⟨m', hexec, h'⟩ := h.poised.execute hg hmp hfits
  rw [← h.dispatched hfirst hlo htext] at hexec
  exact h.step_of_execute hfirst hword hlo hhi hexec h'

theorem turn (h : Stands first d i x n m) (hfirst : first.program = Program.ofBytes code) :
    Stands first d.opposite i x n { m with direction := m.direction.opposite } := by
  have hprogram : Machine.program { m with direction := m.direction.opposite }
      = Program.ofBytes code := h.program.trans hfirst
  refine ⟨h.program, h.source, h.sink, h.schedule, congrArg Direction.opposite h.direction, h.ip,
    h.memory, h.size, h.cell, ?_⟩
  rw [size_image hprogram, ← h.image_size hfirst]
  exact h.status

/-- A turn leaves the memory alone and goes back. -/
theorem step_turn (h : Stands first d i x n m) (hfirst : first.program = Program.ofBytes code)
    (hword : FitsWord code.length) (hlo : 0 ≤ i)
    (hb : (Program.text code d)[i.toNat]? = some Instruction.reverse.glyph) :
    Stands first d.opposite (i + d.opposite.delta) x n m.step := by
  have hhi : i < code.length := by
    have hnat := (List.getElem?_eq_some_iff.mp hb).1
    rw [Program.length_text] at hnat
    omega
  have hexec : m.poised.execute m.dispatched
      = ({ m.poised with direction := m.poised.direction.opposite }, none) := by
    rw [h.dispatched hfirst hlo hb, Machine.execute, Instruction.ofGlyph?_glyph]
  exact h.step_of_execute hfirst hword hlo hhi hexec (h.poised.turn hfirst)

end Stands

/-! ### There and back -/

/-- The program that runs through a text and back. -/
def thereAndBack (text : Bytes) : Bytes :=
  text ++ [Instruction.reverse.glyph]

theorem length_thereAndBack (text : Bytes) : (thereAndBack text).length = text.length + 1 := by
  simp [thereAndBack]

section Passes

variable {text : Bytes} {options : Options} {source : Source} {sink : Sink}

theorem stands_start :
    let first := start (thereAndBack text) options source sink
    Stands first .forward 0 Memory.blank 1 first := by
  intro first
  have hmemory : first.memory = Memory.blank := by
    rw [memory, Memory.blank, Memory.mk.injEq]
    refine ⟨by simp [first, start], ?_⟩
    funext p
    cases p <;> simp [first, start, Tape.blank, Tape.cell]
  have hstatus : first.status = .running := by simp [first, start_status, thereAndBack]
  refine ⟨rfl, rfl, rfl, by simp [first, start], by simp [first, start], by simp [first, start],
    hmemory, by simp [first, start, Tape.blank, Tape.size], by simp [Memory.blank], ?_⟩
  have hprogram : first.program = Program.ofBytes (thereAndBack text) := by simp [first, start]
  rw [hstatus, size_image hprogram, length_thereAndBack, if_pos (by omega)]

variable (hundoable : Undoable text) (hword : FitsWord (text.length + 1))

include hundoable hword

/-- Wherever the machine stands in the text, a step takes it past the byte there. -/
theorem Stands.step_through (hfirst : first.program = Program.ofBytes (thereAndBack text)) {k : Nat}
    (hk : k < text.length) (h : Stands first d k x n m) (hmp : 0 ≤ (x.pass d text[k]).mp)
    (hle : (x.pass d text[k]).mp ≤ text.length) :
    Stands first d (k + d.delta) (x.pass d text[k]) (max n ((x.pass d text[k]).mp.toNat + 1))
      m.step := by
  have hbyte : (thereAndBack text)[(k : Int).toNat]? = some text[k] := by
    rw [Int.toNat_natCast, thereAndBack, List.getElem?_append_left hk, List.getElem?_eq_getElem hk]
  have hplain : ∀ l ∈ lasting, text[k] ≠ l.glyph := by
    intro l hl heq
    exact hundoable l hl (heq ▸ List.getElem_mem hk)
  obtain ⟨-, hmax⟩ := hword
  refine h.step_pass hfirst ?_ (by omega) hbyte hplain hmp ⟨by omega, by omega⟩
  rw [length_thereAndBack]
  exact ⟨by omega, by omega⟩

/-- On the way out, the memory is the one that what has been passed makes of it. -/
theorem stands_forward (k : Nat) (hk : k ≤ text.length) :
    let first := start (thereAndBack text) options source sink
    Stands first .forward k (Memory.after (text.take k))
      ((text.take k).count Instruction.move.glyph + 1) (stepMany k first) := by
  intro first
  have hfirst : first.program = Program.ofBytes (thereAndBack text) := by simp [first, start]
  induction k with
  | zero => exact stands_start
  | succ k ih =>
      have hlt : k < text.length := hk
      have hmp := Memory.mp_after (text.take (k + 1))
      have hmore : (text.take k).count Instruction.move.glyph
          ≤ (text.take (k + 1)).count Instruction.move.glyph :=
        (List.take_sublist_take_left (Nat.le_succ k)).count_le _
      have hle : (text.take (k + 1)).count Instruction.move.glyph ≤ text.length :=
        Nat.le_trans List.count_le_length (List.length_take_le' _ _)
      rw [Memory.after_take_succ text hlt] at hmp ⊢
      have hstep := (ih (by omega)).step_through hundoable hword hfirst hlt (by omega) (by omega)
      rw [hmp, Int.toNat_natCast, Nat.max_eq_right (by omega)] at hstep
      rw [stepMany_succ]
      exact hstep

/-- On the way back, it is the one that what lies ahead has made of it. -/
theorem stands_reverse (k : Nat) (hk : k ≤ text.length) :
    let first := start (thereAndBack text) options source sink
    Stands first .reverse (k - 1) (Memory.after (text.take k))
      (text.count Instruction.move.glyph + 1) (stepMany (2 * text.length + 1 - k) first) := by
  intro first
  have hfirst : first.program = Program.ofBytes (thereAndBack text) := by simp [first, start]
  induction hk using Nat.decreasingInduction with
  | self =>
      have hout : Stands first .forward text.length (Memory.after (text.take text.length))
          ((text.take text.length).count Instruction.move.glyph + 1) (stepMany text.length first) :=
        stands_forward hundoable hword text.length (Nat.le_refl _)
      rw [List.take_length] at hout ⊢
      have hbyte : (Program.text (thereAndBack text) .forward)[(text.length : Int).toNat]?
          = some Instruction.reverse.glyph := by
        rw [Int.toNat_natCast, Program.text, thereAndBack, List.getElem?_concat_length]
      have hback := hout.step_turn hfirst (by rw [length_thereAndBack]; exact hword) (by omega)
        hbyte
      rw [show 2 * text.length + 1 - text.length = text.length + 1 by omega, stepMany_succ]
      exact hback
  | of_succ k hk ih =>
      have hundo : ((Memory.after (text.take (k + 1))).pass .reverse text[k])
          = Memory.after (text.take k) := by
        rw [Memory.after_take_succ text hk]
        exact Memory.pass_opposite .forward _ _
      have hmp := Memory.mp_after (text.take k)
      have hle : (text.take k).count Instruction.move.glyph ≤ text.count Instruction.move.glyph :=
        (List.take_sublist _ _).count_le _
      have hlength : text.count Instruction.move.glyph ≤ text.length := List.count_le_length
      rw [show ((k + 1 : Nat) : Int) - 1 = k by omega] at ih
      have hstep := ih.step_through hundoable hword hfirst hk (by rw [hundo]; omega)
        (by rw [hundo]; omega)
      rw [hundo, hmp, Int.toNat_natCast, Nat.max_eq_left (by omega)] at hstep
      rw [show 2 * text.length + 1 - k = 2 * text.length + 1 - (k + 1) + 1 by omega, stepMany_succ]
      exact hstep

theorem running_before_end (k : Nat) (hk : k < 2 * text.length + 1) :
    (stepMany k (start (thereAndBack text) options source sink)).status = .running := by
  have hprogram : (start (thereAndBack text) options source sink).program
      = Program.ofBytes (thereAndBack text) := by simp [start]
  have hlength := length_thereAndBack text
  by_cases hout : k ≤ text.length
  · have h : Stands (start (thereAndBack text) options source sink) .forward k _ _ _ :=
      stands_forward hundoable hword k hout
    exact h.running (by omega) (by rw [h.image_size hprogram]; omega)
  · obtain ⟨j, hj, rfl⟩ : ∃ j ≤ text.length, k = 2 * text.length + 1 - j :=
      ⟨2 * text.length + 1 - k, by omega, by omega⟩
    have h : Stands (start (thereAndBack text) options source sink) .reverse (j - 1) _ _ _ :=
      stands_reverse hundoable hword j hj
    exact h.running (by omega) (by rw [h.image_size hprogram]; omega)

end Passes

/--
**Running in reverse undoes what running forward did.**  Let a text of `+`, `>` and comments be run
with an `R` behind it.  After as many steps as it takes to run through the text twice and to turn
around, and not before, the machine halts in front of the program.  It has come past the same memory
on the way back as on the way out.  So the memory pointer is back at the first cell and all cells
are zero, one for each `>` and the one that is there from the start.  Nothing is scheduled, and
nothing has been read or written.
-/
theorem reverse_undoes_forward (text : Bytes) (options : Options) (source : Source) (sink : Sink)
    (hundoable : Undoable text) (hword : FitsWord (text.length + 1)) :
    let first := start (thereAndBack text) options source sink
    let last := stepMany (2 * text.length + 1) first
    (∀ k < 2 * text.length + 1, (stepMany k first).status = .running) ∧
      last.status = .halted ∧ last.steps.toNat = 2 * text.length + 1 ∧
      last.direction = .reverse ∧ last.ip = -1 ∧ last.mp = 0 ∧ last.schedule = [] ∧
      last.tape.cells = Array.replicate (1 + text.count Instruction.move.glyph) 0 ∧
      last.source = source ∧ last.sink = sink ∧
      ∀ k ≤ text.length, (stepMany (2 * text.length + 1 - k) first).memory
        = (stepMany k first).memory := by
  intro first last
  have hback : ∀ k ≤ text.length, Stands first .reverse (k - 1) (Memory.after (text.take k))
      (text.count Instruction.move.glyph + 1) (stepMany (2 * text.length + 1 - k) first) :=
    fun k hk => stands_reverse hundoable hword k hk
  have hend : Stands first .reverse (-1) Memory.blank (text.count Instruction.move.glyph + 1)
      last :=
    hback 0 (Nat.zero_le _)
  have hrunning : ∀ k < 2 * text.length + 1, (stepMany k first).status = .running :=
    fun k hk => running_before_end hundoable hword k hk
  have hsteps : last.steps.toNat = 2 * text.length + 1 := by
    obtain ⟨-, hmax⟩ := hword
    rw [steps_of_running hrunning, UInt64.toNat_ofNat']
    exact Nat.mod_eq_of_lt (by omega)
  have hcells : last.tape.cells = Array.replicate (1 + text.count Instruction.move.glyph) 0 := by
    rw [Tape.cells_eq_replicate (congrArg Memory.cells hend.memory), hend.size, Nat.add_comm]
  refine ⟨hrunning, hend.status, hsteps, hend.direction, hend.ip, congrArg Memory.mp hend.memory,
    hend.schedule, hcells, ?_, ?_, ?_⟩
  · rw [hend.source]
    simp [first, start]
  · rw [hend.sink]
    simp [first, start]
  · intro k hk
    have hout : Stands first .forward k (Memory.after (text.take k)) _ (stepMany k first) :=
      stands_forward hundoable hword k hk
    rw [(hback k hk).memory, hout.memory]

/-- The text `+>>+a+` is run through and back in thirteen steps, on three cells. -/
theorem reverse_undoes_forward_over_three_cells :
    let text : Bytes := [0x2B, 0x3E, 0x3E, 0x2B, 0x61, 0x2B]
    let first := start (thereAndBack text) { verbose := true } {} {}
    (stepMany 6 first).tape.cells = #[1, 0, 2] ∧
      (stepMany 13 first).status = .halted ∧ (stepMany 13 first).tape.cells = #[0, 0, 0] ∧
      (stepMany 9 first).memory = (stepMany 4 first).memory := by
  intro text first
  have hundone := reverse_undoes_forward text { verbose := true } {} {} (by decide) (by decide)
  rw [show 2 * text.length + 1 = 13 from rfl] at hundone
  obtain ⟨-, hhalted, -, -, -, -, -, hcells, -, -, hmemory⟩ := hundone
  refine ⟨by decide +kernel, hhalted, ?_, hmemory 4 (by decide)⟩
  rw [hcells]
  decide

end Machine

end TimeTape
