/-
Machine words.

Pointers, countdowns and jump targets are whole numbers kept in the range of a signed
64-bit word.  They are modelled as integers, and `wrap` is applied after every addition,
subtraction and multiplication, so a result that leaves the range comes back at the other
end of it.  Counts are unsigned words, which start again from zero.

What becomes of such a result is left open in the engine: it computes by the rules of an
`Arithmetic`, which are those of words unless something else is said.
-/
namespace TimeTape

/-- Whether a number is in the range of a signed 64-bit word. -/
def FitsWord (n : Int) : Prop :=
  -9223372036854775808 ≤ n ∧ n < 9223372036854775808

instance (n : Int) : Decidable (FitsWord n) :=
  inferInstanceAs (Decidable (_ ∧ _))

/-- The signed 64-bit integer that differs from `n` by a multiple of the number of words. -/
def wrap (n : Int) : Int :=
  (Int64.ofInt n).toInt

theorem wrap_eq_bmod (n : Int) : wrap n = n.bmod 18446744073709551616 := by
  simp [wrap, Int64.toInt_ofInt]

/-- A number that already fits in a word is not changed. -/
theorem wrap_of_fits {n : Int} (h : FitsWord n) : wrap n = n := by
  obtain ⟨hlo, hhi⟩ := h
  rw [wrap_eq_bmod]
  exact Int.bmod_eq_of_le (by omega) (by omega)

/-- What becomes of the results of the engine's computations. -/
structure Arithmetic where
  /-- The number that stands for a sum, a difference or a product. -/
  reduce : Int → Int
  /-- The count that comes after a count. -/
  next : UInt64 → UInt64

/-- The arithmetic of words. -/
def Arithmetic.wrapping : Arithmetic :=
  { reduce := wrap, next := (· + 1) }

@[simp] theorem Arithmetic.wrapping_reduce : wrapping.reduce = wrap := rfl

@[simp] theorem Arithmetic.wrapping_next (c : UInt64) : wrapping.next c = c + 1 := rfl

end TimeTape
