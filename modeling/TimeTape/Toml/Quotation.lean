/-
Strings in a TOML text.

There are four forms: in quotation marks, where a backslash starts an escape, and in
apostrophes, where nothing does, and both in a variant with three of the marks that may go
over several lines.  Each function is given the text after the opening marks and gives the
string with what comes after the closing ones.
-/
import TimeTape.Text.Quoted

namespace TimeTape.Toml

open TimeTape.Text (apostrophe quotationMark unhex?)

/-- Whether a character ends a line. -/
def isNewline (c : Char) : Bool :=
  c = '\n' || c = '\r'

/-- Whether a character may stand between the parts of a line. -/
def isSpace (c : Char) : Bool :=
  c = ' ' || c = '\t'

/-- The character whose number is written in the first `width` digits. -/
def charNumbered? (width : Nat) (s : List Char) : Option Char := do
  let n ← unhex? width s
  if n.isValidChar then some (Char.ofNat n) else none

/--
The character that an escape stands for, and how many characters it takes after the
backslash.
-/
def escape? : List Char → Option (Char × Nat)
  | 'b' :: _ => some (Char.ofNat 0x08, 1)
  | 't' :: _ => some (Char.ofNat 0x09, 1)
  | 'n' :: _ => some (Char.ofNat 0x0A, 1)
  | 'f' :: _ => some (Char.ofNat 0x0C, 1)
  | 'r' :: _ => some (Char.ofNat 0x0D, 1)
  | 'e' :: _ => some (Char.ofNat 0x1B, 1)
  | '\\' :: _ => some ('\\', 1)
  | 'x' :: rest => (charNumbered? 2 rest).map (·, 3)
  | 'u' :: rest => (charNumbered? 4 rest).map (·, 5)
  | 'U' :: rest => (charNumbered? 8 rest).map (·, 9)
  | c :: _ => if c = quotationMark then some (c, 1) else none
  | [] => none

/-- A string in quotation marks, of which the first `skip` characters have been used. -/
def basicFrom : Nat → List Char → Option (List Char × List Char)
  | _, [] => none
  | skip + 1, _ :: rest => basicFrom skip rest
  | 0, c :: rest =>
    if c = quotationMark then some ([], rest)
    else if isNewline c then none
    else if c = '\\' then do
      let (e, used) ← escape? rest
      let (s, rest) ← basicFrom used rest
      some (e :: s, rest)
    else do
      let (s, rest) ← basicFrom 0 rest
      some (c :: s, rest)

/-- A string in quotation marks. -/
def basic (s : List Char) : Option (String × List Char) :=
  (basicFrom 0 s).map fun (s, rest) => (String.ofList s, rest)

/-- A string in apostrophes. -/
def literal (s : List Char) : Option (String × List Char) :=
  match s.span fun c => c ≠ apostrophe && !isNewline c with
  | (inside, mark :: rest) => if mark = apostrophe then some (String.ofList inside, rest) else none
  | (_, []) => none

/-- A line break at the very start of a string over several lines is not part of it. -/
def dropFirstNewline : List Char → List Char
  | '\n' :: rest => rest
  | '\r' :: '\n' :: rest => rest
  | s => s

/--
What a run of `n` marks means inside a string that three marks close: one or two are part of
the string, three close it, and up to two more in front of them are part of it.  `most` is the
longest run that is allowed; longer ones are refused.  Gives how many marks belong to the
string and whether it is closed.
-/
def closing? (most n : Nat) : Option (Nat × Bool) :=
  if n < 3 then some (n, false)
  else if n ≤ most then some (n - 3, true)
  else none

/--
A string in three quotation marks, of which the first `skip` characters have been used.  A
backslash at the end of a line joins it to the next text.  A run of marks after a backslash
that is escaped by another may be one longer than elsewhere.
-/
def multilineBasicFrom :
    Nat → (afterBackslash : Bool) → List Char → Option (List Char × List Char)
  | _, _, [] => none
  | skip + 1, afterBackslash, _ :: rest => multilineBasicFrom skip afterBackslash rest
  | 0, afterBackslash, c :: rest =>
    if c = quotationMark then do
      let more := (rest.takeWhile (· = quotationMark)).length
      let (inside, closed) ← closing? (if afterBackslash then 6 else 5) (more + 1)
      let marks := List.replicate inside quotationMark
      if closed then some (marks, rest.drop more)
      else do
        let (s, rest) ← multilineBasicFrom more false rest
        some (marks ++ s, rest)
    else if c = '\\' then
      let blank := rest.takeWhile fun c => isSpace c || isNewline c
      if blank.contains '\n' then multilineBasicFrom blank.length false rest
      else do
        let (e, used) ← escape? rest
        let (s, rest) ← multilineBasicFrom used (rest.head? = some '\\') rest
        some (e :: s, rest)
    else do
      let (s, rest) ← multilineBasicFrom 0 false rest
      some (c :: s, rest)

/-- A string in three quotation marks. -/
def multilineBasic (s : List Char) : Option (String × List Char) :=
  (multilineBasicFrom 0 false (dropFirstNewline s)).map fun (s, rest) => (String.ofList s, rest)

/-- A string in three apostrophes, of which the first `skip` characters have been used. -/
def multilineLiteralFrom : Nat → List Char → Option (List Char × List Char)
  | _, [] => none
  | skip + 1, _ :: rest => multilineLiteralFrom skip rest
  | 0, c :: rest =>
    if c = apostrophe then do
      let more := (rest.takeWhile (· = apostrophe)).length
      let (inside, closed) ← closing? 5 (more + 1)
      let marks := List.replicate inside apostrophe
      if closed then some (marks, rest.drop more)
      else do
        let (s, rest) ← multilineLiteralFrom more rest
        some (marks ++ s, rest)
    else do
      let (s, rest) ← multilineLiteralFrom 0 rest
      some (c :: s, rest)

/-- A string in three apostrophes. -/
def multilineLiteral (s : List Char) : Option (String × List Char) :=
  (multilineLiteralFrom 0 (dropFirstNewline s)).map fun (s, rest) => (String.ofList s, rest)

end TimeTape.Toml
