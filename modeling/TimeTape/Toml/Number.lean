/-
Numbers in a TOML text.

Whole numbers are decimal with an optional sign, or hexadecimal, octal or binary after `0x`,
`0o` or `0b`, and have to fit in a signed 64-bit word.  All others have a fraction or an
exponent and have to be in the range of a double-precision number.  Underscores may separate
digits, and a decimal number has no leading zeros.
-/
import TimeTape.Decimal
import TimeTape.Toml.Quotation
import TimeTape.Toml.Value
import TimeTape.Word

namespace TimeTape.Toml

open TimeTape.Text (hexValue?)

/-- Whether a character is a decimal digit. -/
def isDigit (c : Char) : Bool :=
  '0' ≤ c && c ≤ '9'

/--
The digits of a number without the underscores between them.  There is at least one digit,
and one on both sides of every underscore.
-/
def digits? (valid : Char → Bool) : List Char → Option (List Char)
  | [] => none
  | [c] => if valid c then some [c] else none
  | c :: '_' :: more => if valid c then (digits? valid more).map (c :: ·) else none
  | c :: rest => if valid c then (digits? valid rest).map (c :: ·) else none

/-- The value of digits in a base. -/
def valueOf (base : Nat) (digits : List Char) : Nat :=
  digits.foldl (fun n c => n * base + (hexValue? c).getD 0) 0

/-- The digits of a decimal number that does not start with a superfluous zero. -/
def decimalDigits? (s : List Char) : Option (List Char) :=
  if s.head? = some '0' && 1 < s.length then none else digits? isDigit s

/-- A whole number, provided it fits in a word. -/
def fitting? (n : Int) : Option Value :=
  if FitsWord n then some (.integer n) else none

/-- A whole number in decimal. -/
def decimal? (negative : Bool) (s : List Char) : Option Value :=
  (decimalDigits? s).bind fun digits =>
    let n : Int := valueOf 10 digits
    fitting? (if negative then -n else n)

/-- A whole number in another base, given what comes after the letter that chooses it. -/
def based (base : Nat) (s : List Char) : Option (Value × List Char) :=
  let valid := fun c => (hexValue? c).any (· < base)
  let (token, rest) := s.span fun c => valid c || c = '_'
  ((digits? valid token).bind fun digits => fitting? (valueOf base digits)).map (·, rest)

/-- Whether a character starts an exponent. -/
def isExponentMark (c : Char) : Bool :=
  c = 'e' || c = 'E'

/-- The exponent of a number, with its mark; an empty text stands for none. -/
def exponent? : List Char → Option Int
  | [] => some 0
  | _ :: '-' :: s => (digits? isDigit s).map fun d => -Int.ofNat (valueOf 10 d)
  | _ :: '+' :: s => (digits? isDigit s).map fun d => Int.ofNat (valueOf 10 d)
  | _ :: s => (digits? isDigit s).map fun d => Int.ofNat (valueOf 10 d)

/-- The digits of a fraction, with its point; an empty text stands for none. -/
def fraction? : List Char → Option (List Char)
  | [] => some []
  | _ :: s => digits? isDigit s

/-- A number with a fraction or an exponent, without its sign. -/
def float? (s : List Char) : Option Value := do
  let (front, power) := s.span fun c => !isExponentMark c
  let (whole, point) := front.span (· ≠ '.')
  let digits := (← decimalDigits? whole) ++ (← fraction? point)
  let places := digits.length - (← decimalDigits? whole).length
  if Decimal.overflows (valueOf 10 digits) ((← exponent? power) - places) then none
  else some .float

/-- A decimal number after its sign. -/
def number (negative : Bool) (s : List Char) : Option (Value × List Char) :=
  let (token, rest) := s.span fun c => isDigit c || c = '_'
  if rest.head?.any fun c => c = '.' || isExponentMark c then
    let (token, rest) := s.span fun c =>
      isDigit c || isExponentMark c || c = '_' || c = '.' || c = '+' || c = '-'
    (float? token).map (·, rest)
  else (decimal? negative token).map (·, rest)

end TimeTape.Toml
