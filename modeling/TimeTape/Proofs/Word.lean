/-
Where a sum lands when it leaves the range of a word.

`wrap_of_fits` covers the sums that stay.  Pointers move by less than a word at a time, so a
sum that leaves the range leaves it once and comes back at the other end.
-/
import TimeTape.Word

namespace TimeTape

/-- Wrapping always gives a word. -/
theorem fitsWord_wrap (n : Int) : FitsWord (wrap n) := by
  rw [wrap_eq_bmod, FitsWord, Int.bmod_def]
  split <;> omega

/-- A number just past the greatest word comes back among the least ones. -/
theorem wrap_of_ge {n : Int} (hlo : 9223372036854775808 ≤ n) (hhi : n < 27670116110564327424) :
    wrap n = n - 18446744073709551616 := by
  rw [wrap_eq_bmod, Int.bmod_def]
  split <;> omega

/-- Coming round among the words does not change the lowest byte of a number. -/
theorem ofInt_wrap (n : Int) : UInt8.ofInt (wrap n) = UInt8.ofInt n := by
  have hmod : wrap n % 256 = n % 256 := by
    rw [wrap_eq_bmod, Int.bmod_def]
    split <;> omega
  show UInt8.ofNat (wrap n % 256).toNat = UInt8.ofNat (n % 256).toNat
  rw [hmod]

end TimeTape
