/-
What the operations on a tape do.

Every operation first makes its address reachable, which adds zeros to a tape that is too short.
At an address below the size there is nothing to add: reading leaves the tape alone and writing
changes the one cell.
-/
import TimeTape.Proofs.Word
import TimeTape.Tape

namespace TimeTape.Tape

variable {t : Tape} {p : Nat}

theorem size_extend (t : Tape) (p : Nat) : (t.extend p).size = max t.size (p + 1) := by
  simp only [extend, size, Array.size_append, Array.size_replicate]
  omega

/-- A tape that is long enough is not extended. -/
theorem extend_of_lt (h : p < t.size) : t.extend p = t := by
  have hzero : p + 1 - t.cells.size = 0 := by
    simp only [size] at h
    omega
  simp [extend, hzero]

/-- The cells that are added are zero, as they have been before. -/
theorem cell_extend (t : Tape) (p q : Nat) : (t.extend p).cell q = t.cell q := by
  simp only [cell, extend, Array.getD_eq_getD_getElem?]
  by_cases hq : q < t.cells.size
  · rw [Array.getElem?_append_left hq]
  · have hle := Nat.le_of_not_lt hq
    rw [Array.getElem?_append_right hle, Array.getElem?_eq_none hle, Array.getElem?_replicate]
    split <;> rfl

theorem cell_set (h : p < t.size) (v : UInt8) (q : Nat) :
    cell ⟨t.cells.setIfInBounds p v⟩ q = if q = p then v else t.cell q := by
  simp only [cell, Array.getD_eq_getD_getElem?, Array.getElem?_setIfInBounds]
  by_cases hq : q = p
  · rw [if_pos hq.symm, if_pos hq, if_pos (hq ▸ h)]
    rfl
  · rw [if_neg (fun hp => hq hp.symm), if_neg hq]

/-- A tape without a cell that is not zero is told by its size. -/
theorem cells_eq_replicate (h : t.cell = fun _ => 0) : t.cells = Array.replicate t.size 0 := by
  refine Array.ext (by simp [size]) ?_
  intro p hp hp'
  have hzero : t.cell p = 0 := congrFun h p
  simpa [cell, hp] using hzero

/-! ### Anywhere on the tape or past its end -/

theorem reach?_natCast (t : Tape) (p : Nat) : t.reach? p = some (t.extend p) := by
  rw [reach?, if_neg (by omega), Int.toNat_natCast]

theorem read?_natCast (t : Tape) (p : Nat) : t.read? p = some (t.cell p, t.extend p) := by
  simp [read?, reach?_natCast, cell_extend]

theorem write?_natCast (t : Tape) (p : Nat) (v : UInt8) :
    t.write? p v = some ⟨(t.extend p).cells.setIfInBounds p v⟩ := by
  simp [write?, reach?_natCast]

theorem add?_natCast (t : Tape) (p : Nat) (amount : Int) :
    t.add? p amount
      = some ⟨(t.extend p).cells.setIfInBounds p (UInt8.ofInt ((t.cell p).toNat + amount))⟩ := by
  have hlt : p < (t.extend p).size := by
    rw [size_extend]
    omega
  simp [add?, read?_natCast, write?_natCast, extend_of_lt hlt, ofInt_wrap]

/-! ### At a cell that exists -/

theorem read?_of_lt (h : p < t.size) : t.read? p = some (t.cell p, t) := by
  rw [read?_natCast, extend_of_lt h]

theorem write?_of_lt (h : p < t.size) (v : UInt8) :
    t.write? p v = some ⟨t.cells.setIfInBounds p v⟩ := by
  rw [write?_natCast, extend_of_lt h]

theorem add?_of_lt (h : p < t.size) (amount : Int) :
    t.add? p amount
      = some ⟨t.cells.setIfInBounds p (UInt8.ofInt ((t.cell p).toNat + amount))⟩ := by
  rw [add?_natCast, extend_of_lt h]

end TimeTape.Tape
