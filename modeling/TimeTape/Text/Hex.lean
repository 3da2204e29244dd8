/-
Hexadecimal digits.

Numbers of characters are written and read in a fixed number of hexadecimal digits.  They are
written in lower case and read in either.
-/
namespace TimeTape.Text

/-- The last `width` hexadecimal digits of `n`, in lower case. -/
def hex (width n : Nat) : String :=
  String.ofList ((List.range width).reverse.map fun i => Nat.digitChar (n / Nat.pow 16 i % 16))

/-- The value of a hexadecimal digit. -/
def hexValue? (c : Char) : Option Nat :=
  if '0' ≤ c ∧ c ≤ '9' then some (c.toNat - '0'.toNat)
  else if 'a' ≤ c ∧ c ≤ 'f' then some (c.toNat - 'a'.toNat + 10)
  else if 'A' ≤ c ∧ c ≤ 'F' then some (c.toNat - 'A'.toNat + 10)
  else none

/-- The number that is written in the first `width` characters. -/
def unhex? (width : Nat) (s : List Char) : Option Nat :=
  if s.length < width then none
  else (s.take width).foldlM (fun n c => (hexValue? c).map (n * 16 + ·)) 0

end TimeTape.Text
