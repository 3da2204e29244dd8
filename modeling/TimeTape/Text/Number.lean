/-
Numbers written as text.

Two notations are read.  `signed?` takes a decimal number with an optional sign that fits in
a signed 64-bit word.  `unsigned` takes a number that fits in an unsigned 64-bit word and
whose leading characters may choose the base: `0x` sixteen, `0o` or just `0` eight, `0b` two.
There digits may be separated by single underscores.
-/
import TimeTape.Text.Utf8
import TimeTape.Word

namespace TimeTape.Text

/-- The value of a decimal digit. -/
def digit? (b : UInt8) : Option Nat :=
  if 0x30 ≤ b ∧ b ≤ 0x39 then some (b.toNat - 0x30) else none

/-- The value of a nonempty sequence of decimal digits. -/
def decimal? (s : Bytes) : Option Nat :=
  if s.isEmpty then none
  else s.foldlM (fun n b => (digit? b).map (n * 10 + ·)) 0

/-- A decimal number with an optional sign, in the range of a signed 64-bit word. -/
def signed? (s : Bytes) : Option Int := do
  let n ← match s with
    | 0x2B :: rest => (decimal? rest).map Int.ofNat
    | 0x2D :: rest => (decimal? rest).map fun n => -Int.ofNat n
    | _ => (decimal? s).map Int.ofNat
  if FitsWord n then some n else none

/-- Why a text is not an unsigned number. -/
inductive NumberError where
  /-- It is not written as a number. -/
  | malformed
  /-- It is a number, but too large for a word. -/
  | outOfRange
  deriving DecidableEq, Repr

/-- The letter in lower case, other bytes unchanged. -/
def lowerByte (b : UInt8) : UInt8 :=
  if 0x41 ≤ b ∧ b ≤ 0x5A then b + 0x20 else b

/-- The value of `b` as a digit of a number whose digits go on with the letters. -/
def letterDigit? (b : UInt8) : Option Nat :=
  let l := lowerByte b
  if 0x30 ≤ b ∧ b ≤ 0x39 then some (b.toNat - 0x30)
  else if 0x61 ≤ l ∧ l ≤ 0x7A then some (l.toNat - 0x61 + 10)
  else none

/-- The base that a number is written in, and its digits. -/
def baseOf (s : Bytes) : Nat × Bytes :=
  match s with
  | 0x30 :: rest =>
    match rest with
    | mark :: digit :: more =>
      if lowerByte mark = 0x62 then (2, digit :: more)
      else if lowerByte mark = 0x6F then (8, digit :: more)
      else if lowerByte mark = 0x78 then (16, digit :: more)
      else (8, rest)
    | _ => (8, rest)
  | _ => (10, s)

/-- Takes one more character of a number that is `n` so far. -/
def nextDigit (base n : Nat) (b : UInt8) : Except NumberError Nat :=
  if b = 0x5F then .ok n
  else match letterDigit? b with
    | none => .error .malformed
    | some d =>
      if d ≥ base then .error .malformed
      else if n * base + d ≥ UInt64.size then .error .outOfRange
      else .ok (n * base + d)

/-- Whether every underscore stands between two digits; `afterDigit` says what came before. -/
def underscoresSeparate (isDigit : UInt8 → Bool) : Bool → Bytes → Bool
  | _, [] => true
  | afterDigit, b :: rest =>
    if b = 0x5F then
      afterDigit && (rest.head?.any isDigit) && underscoresSeparate isDigit false rest
    else underscoresSeparate isDigit (isDigit b) rest

/-- An unsigned 64-bit number, in the base that its first characters choose. -/
def unsigned (s : Bytes) : Except NumberError UInt64 :=
  if s.isEmpty then .error .malformed
  else
    let (base, digits) := baseOf s
    match digits.foldlM (nextDigit base) 0 with
    | .error e => .error e
    | .ok n =>
      let isDigit := fun b => (letterDigit? b).any (· < base)
      if underscoresSeparate isDigit (base ≠ 10) digits then .ok n.toUInt64
      else .error .malformed

/-- The text `s`, preceded by blanks up to a width of `width`. -/
def padLeft (width : Nat) (s : String) : String :=
  "".pushn ' ' (width - s.length) ++ s

/-- The text `s`, followed by blanks up to a width of `width`. -/
def padRight (width : Nat) (s : String) : String :=
  s ++ "".pushn ' ' (width - s.length)

end TimeTape.Text
