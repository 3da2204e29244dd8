/-
Structured values read from text.

Values nest, so the recursion is on a bound on the number of rules that can still be applied;
every rule uses up a character, or is followed by one that does, so twice the length of the
text is enough.
-/
import TimeTape.Json
import TimeTape.Text.Quoted

namespace TimeTape.Json

open TimeTape.Text (quotationMark unhex?)

/-- Drops white space. -/
def skipSpace (s : List Char) : List Char :=
  s.dropWhile fun c => c = ' ' || c = '\t' || c = '\n' || c = '\r'

/-! ### Strings -/

/-- The character for a code unit that is not part of a pair. -/
def unitChar (n : Nat) : Char :=
  if n.isValidChar then Char.ofNat n else Char.ofNat 0xFFFD

/-- The second code unit of a pair, with its escape in front of it. -/
def lowUnit? : List Char → Option Nat
  | '\\' :: 'u' :: rest =>
    (unhex? 4 rest).bind fun n => if 0xDC00 ≤ n ∧ n < 0xE000 then some n else none
  | _ => none

/-- The character that a code unit stands for when `rest` follows, and how far it reaches. -/
def fromUnit (n : Nat) (rest : List Char) : Char × Nat :=
  if 0xD800 ≤ n ∧ n < 0xDC00 then
    match lowUnit? rest with
    | some low => (Char.ofNat (0x10000 + (n - 0xD800) * 0x400 + (low - 0xDC00)), 11)
    | none => (unitChar n, 5)
  else (unitChar n, 5)

/-- The character that an escape stands for, and how many characters the escape takes. -/
def escape? : List Char → Option (Char × Nat)
  | 'b' :: _ => some (Char.ofNat 0x08, 1)
  | 'f' :: _ => some (Char.ofNat 0x0C, 1)
  | 'n' :: _ => some ('\n', 1)
  | 'r' :: _ => some ('\r', 1)
  | 't' :: _ => some ('\t', 1)
  | 'u' :: rest => (unhex? 4 rest).map fun n => fromUnit n (rest.drop 4)
  | c :: _ => if c = quotationMark || c = '\\' || c = '/' then some (c, 1) else none
  | [] => none

/-- The rest of a string, of which the first `skip` characters have been used. -/
def stringFrom : Nat → List Char → Option (List Char × List Char)
  | _, [] => none
  | skip + 1, _ :: rest => stringFrom skip rest
  | 0, c :: rest =>
    if c = quotationMark then some ([], rest)
    else if c.toNat < 0x20 then none
    else if c = '\\' then do
      let (e, used) ← escape? rest
      let (s, rest) ← stringFrom used rest
      some (e :: s, rest)
    else do
      let (s, rest) ← stringFrom 0 rest
      some (c :: s, rest)

/-- A string, without its first quotation mark. -/
def text? (s : List Char) : Option (String × List Char) :=
  (stringFrom 0 s).map fun (s, rest) => (String.ofList s, rest)

/-! ### Numbers -/

/-- The digits at the start of a text; there has to be one. -/
def digits? (s : List Char) : Option (List Char × List Char) :=
  match s.span Char.isDigit with
  | ([], _) => none
  | parts => some parts

/-- The value of decimal digits. -/
def decimal (digits : List Char) : Nat :=
  digits.foldl (fun n c => n * 10 + (c.toNat - '0'.toNat)) 0

/-- The digits before the point, where a zero stands alone. -/
def whole (s : List Char) : Option (List Char × List Char) :=
  match s with
  | '0' :: rest => some (['0'], rest)
  | _ => digits? s

/-- The digits after the point, if there is one. -/
def fraction : List Char → Option (List Char × List Char)
  | '.' :: rest => digits? rest
  | s => some ([], s)

/-- The exponent, if there is one. -/
def exponent (s : List Char) : Option (Option Int × List Char) :=
  let magnitude := fun (sign : Int) (s : List Char) =>
    (digits? s).map fun (d, rest) => (some (sign * decimal d), rest)
  match s with
  | c :: rest =>
    if c = 'e' || c = 'E' then
      match rest with
      | '-' :: rest => magnitude (-1) rest
      | '+' :: rest => magnitude 1 rest
      | _ => magnitude 1 rest
    else some (none, s)
  | [] => some (none, [])

/--
The number with the given digits, of which `places` stand after the point.  One with an
exponent keeps a place after the point, so that it is not taken for a whole number.  An
exponent that leads far out of the range of double-precision numbers is cut off at `most`.
-/
def scale (most : Nat) (mantissa : Int) (places : Nat) : Option Int → Json
  | none => number mantissa places
  | some e =>
    number (mantissa * Nat.pow 10 (min e.toNat most + 1)) (places + min (-e).toNat most + 1)

/-- A number without its sign. -/
def magnitude? (negative : Bool) (s : List Char) : Option (Json × List Char) := do
  let (w, s) ← whole s
  let (f, s) ← fraction s
  let (e, s) ← exponent s
  let n : Int := decimal (w ++ f)
  let most := 400 + w.length + f.length
  return (scale most (if negative then -n else n) f.length e, s)

/-! ### Values -/

/-- What follows `word` if the text starts with it. -/
def after? (word : String) (s : List Char) : Option (List Char) :=
  if word.toList.isPrefixOf s then some (s.drop word.length) else none

/-- A value that holds no other values. -/
def atom (s : List Char) : Option (Json × List Char) :=
  match s with
  | [] => none
  | c :: rest =>
    if c = quotationMark then (text? rest).map fun (t, rest) => (string t, rest)
    else if c = '-' then magnitude? true rest
    else if c.isDigit then magnitude? false s
    else
      ((after? "null" s).map (null, ·)).or <|
        ((after? "true" s).map (bool true, ·)).or <|
          (after? "false" s).map (bool false, ·)

mutual

/-- A value. -/
def value : Nat → List Char → Option (Json × List Char)
  | 0, _ => none
  | fuel + 1, s =>
    match skipSpace s with
    | '[' :: rest =>
      match skipSpace rest with
      | ']' :: rest => some (array [], rest)
      | rest => (elements fuel rest).map fun (items, rest) => (array items, rest)
    | '{' :: rest =>
      match skipSpace rest with
      | '}' :: rest => some (object [], rest)
      | rest => (members fuel rest).map fun (fields, rest) => (object fields, rest)
    | s => atom s

/-- The items of a list that has at least one, up to its end. -/
def elements : Nat → List Char → Option (List Json × List Char)
  | 0, _ => none
  | fuel + 1, s => do
    let (item, rest) ← value fuel s
    match skipSpace rest with
    | ']' :: rest => some ([item], rest)
    | ',' :: rest => do
      let (more, rest) ← elements fuel rest
      some (item :: more, rest)
    | _ => none

/-- The fields of a record that has at least one, up to its end. -/
def members : Nat → List Char → Option (List (String × Json) × List Char)
  | 0, _ => none
  | fuel + 1, s =>
    match skipSpace s with
    | [] => none
    | c :: rest =>
      if c = quotationMark then do
        let (name, rest) ← text? rest
        match skipSpace rest with
        | ':' :: rest => do
          let (item, rest) ← value fuel rest
          match skipSpace rest with
          | '}' :: rest => some ([(name, item)], rest)
          | ',' :: rest => do
            let (more, rest) ← members fuel rest
            some ((name, item) :: more, rest)
          | _ => none
        | _ => none
      else none

end

/-- The value that a text holds, with nothing but white space around it. -/
def parse? (text : Bytes) : Option Json := do
  let s ← Utf8.chars? text
  let (j, rest) ← value (2 * s.length + 2) s
  if (skipSpace rest).isEmpty then some j else none

end TimeTape.Json
