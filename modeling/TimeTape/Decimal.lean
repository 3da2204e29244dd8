/-
Decimal numbers of any size.

A number is given by its digits and the power of ten that they are multiplied with.
-/
namespace TimeTape.Decimal

/--
Whether `mantissa * 10 ^ exponent` is too large for a double-precision number.  The bound is
the number halfway between the largest of them and the next power of two.  Numbers with far
more or far fewer digits than the bound are decided without computing the power.
-/
def overflows (mantissa : Nat) (exponent : Int) : Bool :=
  let bound := Nat.pow 2 1024 - Nat.pow 2 970
  let digits : Int := (toString mantissa).length + exponent
  if mantissa = 0 || digits < 300 then false
  else if 320 < digits then true
  else if 0 ≤ exponent then bound ≤ mantissa * Nat.pow 10 exponent.toNat
  else bound * Nat.pow 10 (-exponent).toNat ≤ mantissa

end TimeTape.Decimal
