/-
Dates and times in a TOML text.

A date is year, month and day; a time is hour and minute with optional seconds, which may
have a fraction; a date and a time may be followed by the distance from universal time.
Only whether they are right is of interest here.
-/
import TimeTape.Toml.Number

namespace TimeTape.Toml

/-- A number of `width` digits. -/
def fixed? (width : Nat) (s : List Char) : Option (Nat × List Char) :=
  let token := s.take width
  if token.length = width && token.all isDigit then some (valueOf 10 token, s.drop width) else none

/-- The given character. -/
def exactly? (c : Char) : List Char → Option (List Char)
  | d :: rest => if c = d then some rest else none
  | [] => none

/-- The number of days of a month. -/
def daysIn (year month : Nat) : Nat :=
  if month = 2 then
    if year % 4 = 0 && (year % 100 ≠ 0 || year % 400 = 0) then 29 else 28
  else if month = 4 || month = 6 || month = 9 || month = 11 then 30
  else 31

/-- A date; gives what comes after it. -/
def date? (s : List Char) : Option (List Char) := do
  let (year, s) ← fixed? 4 s
  let (month, s) ← fixed? 2 (← exactly? '-' s)
  let (day, s) ← fixed? 2 (← exactly? '-' s)
  if 1 ≤ month && month ≤ 12 && 1 ≤ day && day ≤ daysIn year month then some s else none

/-- Drops the fraction of a second, if there is one. -/
def dropFraction : List Char → List Char
  | '.' :: c :: rest => if isDigit c then rest.dropWhile isDigit else '.' :: c :: rest
  | s => s

/-- A time of the day; gives what comes after it. -/
def time? (s : List Char) : Option (List Char) := do
  let (hour, s) ← fixed? 2 s
  let (minute, s) ← fixed? 2 (← exactly? ':' s)
  if 24 ≤ hour || 60 ≤ minute then none
  else match s with
    | ':' :: s =>
      let (second, s) ← fixed? 2 s
      if 60 ≤ second then none else some (dropFraction s)
    | _ => some s

/-- A distance from universal time, of at most 24 hours and 60 minutes; or nothing. -/
def offset? : List Char → Option (List Char)
  | 'Z' :: s => some s
  | sign :: s =>
    if sign = '+' || sign = '-' then do
      let (hour, s) ← fixed? 2 s
      let (minute, s) ← fixed? 2 (← exactly? ':' s)
      if hour ≤ 24 && minute ≤ 60 then some s else none
    else none
  | [] => some []

/-- Whether a text is a date, a time, or both. -/
def isDatetime (s : List Char) : Bool :=
  match date? s with
  | some [] => true
  | some ('T' :: s) => ((time? s).bind offset?).any List.isEmpty
  | some _ => false
  | none => (time? s).any List.isEmpty

/-- The separators between date, time and zone in their standard form. -/
def standardSeparator (c : Char) : Char :=
  if c = 't' || c = ' ' then 'T' else if c = 'z' then 'Z' else c

/-- Whether a character may occur in a date or time. -/
def isDatetimeChar (c : Char) : Bool :=
  isDigit c || c = '-' || c = ':' || c = 'T' || c = 't' || c = ' ' || c = '.' || c = 'Z' ||
    c = 'z' || c = '+'

/-- A date or a time.  Blanks after it are taken with it. -/
def datetime (s : List Char) : Option (Value × List Char) :=
  let (token, rest) := s.span isDatetimeChar
  let token := (token.reverse.dropWhile (· = ' ')).reverse
  if isDatetime (token.map standardSeparator) then some (.datetime, rest) else none

end TimeTape.Toml
