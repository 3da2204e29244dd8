/-
A tape is a memory without an end.

A tape has only the cells that have been asked for, and grows whenever an address lies past them.
Nobody who uses it can tell: whatever is done to a tape, one operation after the other, it gives the
answers of a memory that holds a byte at every address, zero at first.  What growing adds are the
zeros that such a memory has there anyway, and an operation that is refused does nothing at all.

Only the size tells how far the tape has been used, and it tells no more than that: the last cell is
the farthest one that any operation was about.
-/
import TimeTape.Fault
import TimeTape.Proofs.Tape
import Mathlib.Data.List.Induction
import Mathlib.Order.Bounds.Basic

namespace TimeTape.Tape

/-! ### Operations -/

/-- What can be done to a tape. -/
inductive Operation where
  /-- Make an address reachable. -/
  | reach (p : Int)
  | read (p : Int)
  | write (p : Int) (v : UInt8)
  | add (p amount : Int)
  deriving DecidableEq, Repr

/-- The address that an operation is about. -/
def Operation.address : Operation → Int
  | .reach p => p
  | .read p => p
  | .write p _ => p
  | .add p _ => p

/-- What an operation answers: a paradox, or the cell if it has read one. -/
abbrev Answer := Except Paradox (Option UInt8)

/-- The tape after a change, or the same tape if the change was refused. -/
def settle (t : Tape) : Option Tape → Tape × Answer
  | none => (t, .error .negativeAddress)
  | some changed => (changed, .ok none)

/-- Carries an operation out. -/
def perform (t : Tape) : Operation → Tape × Answer
  | .reach p => t.settle (t.reach? p)
  | .read p =>
    match t.read? p with
    | none => (t, .error .negativeAddress)
    | some (c, reached) => (reached, .ok (some c))
  | .write p v => t.settle (t.write? p v)
  | .add p amount => t.settle (t.add? p amount)

/-- The tape that operations on a blank one leave. -/
def after (ops : List Operation) : Tape :=
  ops.foldl (fun t op => (t.perform op).1) blank

/--
What an operation makes of a memory without an end.  A sum counts modulo 256, and there is no
address below zero at which anything could change.
-/
def Operation.effect (cells : Nat → UInt8) : Operation → Nat → UInt8
  | .write p v => fun q => if (q : Int) = p then v else cells q
  | .add p amount => fun q =>
    if (q : Int) = p then UInt8.ofNat (((cells q).toNat + amount) % 256).toNat else cells q
  | _ => cells

/-- What a memory without an end holds after operations, if it holds nothing but zeros at first. -/
def cellsAfter (ops : List Operation) : Nat → UInt8 :=
  ops.foldl Operation.effect fun _ => 0

theorem after_concat (ops : List Operation) (op : Operation) :
    after (ops ++ [op]) = ((after ops).perform op).1 := by
  simp [after]

theorem cellsAfter_concat (ops : List Operation) (op : Operation) :
    cellsAfter (ops ++ [op]) = op.effect (cellsAfter ops) := by
  simp [cellsAfter]

/-! ### What one operation does -/

variable {t : Tape} {op : Operation}

/-- At a negative address nothing happens. -/
theorem perform_of_neg (h : op.address < 0) : t.perform op = (t, .error .negativeAddress) := by
  cases op with
  | reach p | read p | write p v | add p amount =>
      have hreach : t.reach? p = none := if_pos h
      simp [perform, settle, read?, write?, add?, hreach]

theorem effect_of_neg (h : op.address < 0) (cells : Nat → UInt8) : op.effect cells = cells := by
  cases op with
  | reach p | read p => rfl
  | write p v | add p amount =>
      have haddress : p < 0 := h
      funext q
      exact if_neg (by omega)

/-- A cell that is written takes its value, and every other one stays what it was. -/
theorem cell_write_extend (t : Tape) (p : Nat) (v : UInt8) (q : Nat) :
    cell ⟨(t.extend p).cells.setIfInBounds p v⟩ q = if q = p then v else t.cell q := by
  have hlt : p < (t.extend p).size := by
    rw [size_extend]
    omega
  rw [cell_set hlt, cell_extend]

/-- At any other address the tape reaches it, and changes like a memory without an end. -/
theorem perform_of_nonneg {p : Nat} (h : op.address = p) :
    (t.perform op).1.size = max t.size (p + 1) ∧ (t.perform op).1.cell = op.effect t.cell ∧
      (t.perform op).2 = .ok (if op = .read p then some (t.cell p) else none) := by
  cases op with
  | reach a =>
      obtain rfl : a = p := h
      rw [perform, reach?_natCast]
      exact ⟨size_extend t p, funext (cell_extend t p), rfl⟩
  | read a =>
      obtain rfl : a = p := h
      rw [perform, read?_natCast, if_pos rfl]
      exact ⟨size_extend t p, funext (cell_extend t p), rfl⟩
  | write a v =>
      obtain rfl : a = p := h
      rw [perform, write?_natCast]
      refine ⟨?_, ?_, rfl⟩
      · rw [← size_extend]
        simp [settle, size]
      · funext q
        simp only [settle, Operation.effect, cell_write_extend, Int.natCast_inj]
  | add a amount =>
      obtain rfl : a = p := h
      rw [perform, add?_natCast]
      refine ⟨?_, ?_, rfl⟩
      · rw [← size_extend]
        simp [settle, size]
      · funext q
        simp only [settle, Operation.effect, cell_write_extend, Int.natCast_inj]
        by_cases hq : q = p
        · rw [if_pos hq, if_pos hq, hq]
          rfl
        · rw [if_neg hq, if_neg hq]

/-! ### What a sequence of operations does -/

/-- One operation changes the tape as it changes a memory without an end. -/
theorem cell_perform (t : Tape) (op : Operation) : (t.perform op).1.cell = op.effect t.cell := by
  by_cases hneg : op.address < 0
  · rw [perform_of_neg hneg, effect_of_neg hneg]
  · obtain ⟨p, hp⟩ := Int.eq_ofNat_of_zero_le (Int.not_lt.mp hneg)
    exact (perform_of_nonneg hp).2.1

/-- And so does a sequence of them. -/
theorem cell_after (ops : List Operation) : (after ops).cell = cellsAfter ops := by
  induction ops using List.reverseRecOn with
  | nil =>
      funext p
      cases p <;> rfl
  | append_singleton ops op ih => rw [after_concat, cellsAfter_concat, cell_perform, ih]

/-- A tape grows to the address of an operation, and to no other size. -/
theorem size_perform (t : Tape) (op : Operation) :
    (t.perform op).1.size = max t.size (op.address + 1).toNat := by
  by_cases hneg : op.address < 0
  · rw [perform_of_neg hneg]
    simp only
    omega
  · obtain ⟨p, hp⟩ := Int.eq_ofNat_of_zero_le (Int.not_lt.mp hneg)
    rw [(perform_of_nonneg hp).1, hp]
    omega

/-- The addresses that operations have used, and the first one, which is there from the start. -/
def used (ops : List Operation) : Set Nat :=
  {p | p = 0 ∨ ∃ op ∈ ops, op.address = p}

/-- The last cell is the farthest that has been used. -/
theorem size_after (ops : List Operation) :
    ∃ far, (after ops).size = far + 1 ∧ IsGreatest (used ops) far := by
  induction ops using List.reverseRecOn with
  | nil =>
      refine ⟨0, rfl, Or.inl rfl, ?_⟩
      rintro p (rfl | ⟨op, hop, -⟩)
      · exact Nat.le_refl 0
      · simp at hop
  | append_singleton ops op ih =>
      obtain ⟨far, hsize, hused, hfarthest⟩ := ih
      have hgrown := size_perform (after ops) op
      rw [hsize, ← after_concat] at hgrown
      refine ⟨max far op.address.toNat, by omega, ?_, ?_⟩
      · by_cases hfar : op.address ≤ far
        · rw [Nat.max_eq_left (by omega)]
          rcases hused with hzero | ⟨before, hbefore, haddress⟩
          · exact Or.inl hzero
          · exact Or.inr ⟨before, by simp [hbefore], haddress⟩
        · rw [Nat.max_eq_right (by omega)]
          exact Or.inr ⟨op, by simp, by omega⟩
      · rintro p (rfl | ⟨other, hother, haddress⟩)
        · exact Nat.zero_le _
        · rcases List.mem_append.mp hother with hbefore | hlast
          · have hle := hfarthest (Or.inr ⟨other, hbefore, haddress⟩)
            omega
          · obtain rfl : other = op := by simpa using hlast
            omega

/--
**A tape is a memory without an end.**  Take any operations on a blank tape, and one more after
them.  It is refused exactly if its address is negative, always as that paradox, and then the tape
stays as it is.  Any other operation succeeds.  One that reads gives what a memory of zeros without
an end holds at that address after the same operations, where sums count modulo 256 however large
they are.  The size of the tape is one more than the farthest address that has been used, or one if
there was none, and no operation makes it less.
-/
theorem tape_is_endless_memory (ops : List Operation) (op : Operation) :
    let t := after ops
    (∀ paradox, (t.perform op).2 = .error paradox ↔
      op.address < 0 ∧ paradox = .negativeAddress) ∧
    (op.address < 0 → (t.perform op).1 = t) ∧
    (∀ p : Nat, op = .read p → (t.perform op).2 = .ok (some (cellsAfter ops p))) ∧
    (∃ far, t.size = far + 1 ∧ IsGreatest (used ops) far) ∧
    t.size ≤ (t.perform op).1.size := by
  intro t
  refine ⟨?_, ?_, ?_, size_after ops, ?_⟩
  · intro paradox
    by_cases hneg : op.address < 0
    · simp [perform_of_neg hneg, hneg, eq_comm]
    · obtain ⟨p, hp⟩ := Int.eq_ofNat_of_zero_le (Int.not_lt.mp hneg)
      simp [(perform_of_nonneg hp).2.2, hneg]
  · intro hneg
    rw [perform_of_neg hneg]
  · rintro p rfl
    have haddress : (Operation.read p).address = p := rfl
    rw [(perform_of_nonneg haddress).2.2, if_pos rfl, ← cell_after]
  · rw [size_perform]
    exact Nat.le_max_left _ _

/--
A cell of 200 to which the greatest word is added: the sum is no word, and what is read is still the
sum modulo 256.
-/
theorem tape_is_endless_memory_past_words :
    let ops := [.write 2 200, .read (-1), .add 2 9223372036854775807]
    ¬FitsWord (200 + 9223372036854775807) ∧
      ((after ops).perform (.read (2 : Nat))).2 = .ok (some 199) ∧
      ((after ops).perform (.add (-1) 7)).1 = after ops ∧
      ∃ far, (after ops).size = far + 1 ∧ IsGreatest (used ops) far := by
  intro ops
  obtain ⟨-, -, hread, hsize, -⟩ := tape_is_endless_memory ops (.read (2 : Nat))
  obtain ⟨-, hrefused, -⟩ := tape_is_endless_memory ops (.add (-1) 7)
  refine ⟨by decide, ?_, hrefused (by decide), hsize⟩
  rw [hread 2 rfl]
  rfl

end TimeTape.Tape
