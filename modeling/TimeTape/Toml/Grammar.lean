/-
The grammar of a TOML text.

A text is read from left to right into statements.  Values nest, so the recursion is on a
bound on the number of rules that can still be applied; every rule uses up a character, or is
followed by one that does, so twice the length of the text is enough.
-/
import TimeTape.Toml.Datetime

namespace TimeTape.Toml

open TimeTape.Text (quotationMark apostrophe)

/-! ### Between the words -/

/-- Drops the blanks of a line. -/
def skipSpace (s : List Char) : List Char :=
  s.dropWhile isSpace

/-- Drops what is left of a line, except for its end. -/
def skipLine (s : List Char) : List Char :=
  s.dropWhile fun c => !isNewline c

/-- Drops blanks, line ends and comments; `inComment` says whether the text starts in one. -/
def skipFrom : (inComment : Bool) → List Char → List Char
  | _, [] => []
  | true, c :: rest => skipFrom (!isNewline c) rest
  | false, c :: rest =>
    if c = '#' then skipFrom true rest
    else if isSpace c || isNewline c then skipFrom false rest
    else c :: rest

/-- Drops blanks, line ends and comments. -/
def skipTrivia (s : List Char) : List Char :=
  skipFrom false s

/-- The end of a statement: nothing more on its line but a comment. -/
def lineEnd? (s : List Char) : Option (List Char) :=
  match skipSpace s with
  | [] => some []
  | c :: rest =>
    if c = '#' then some (skipLine rest)
    else if isNewline c then some (c :: rest)
    else none

/-! ### Keys -/

/-- Whether a character may stand in a key without marks around it. -/
def isBare (c : Char) : Bool :=
  c.isAlphanum || c = '_' || c = '-'

/-- One part of a dotted key. -/
def keyPart (s : List Char) : Option (String × List Char) :=
  match s with
  | [] => none
  | c :: rest =>
    if c = quotationMark then basic rest
    else if c = apostrophe then literal rest
    else
      let (name, rest) := s.span isBare
      if name.isEmpty then none else some (String.ofList name, rest)

/-- A dotted key.  There may be blanks around each part. -/
def key : Nat → List Char → Option (Path × List Char)
  | 0, _ => none
  | fuel + 1, s => do
    let (part, rest) ← keyPart (skipSpace s)
    match skipSpace rest with
    | '.' :: rest => do
      let (path, rest) ← key fuel rest
      some (part :: path, rest)
    | rest => some ([part], rest)

/-! ### Values -/

/-- A string in any of the four forms, given its first mark and what follows. -/
def quoted (mark : Char) (rest : List Char) : Option (String × List Char) :=
  match rest with
  | a :: b :: more =>
    if a = mark && b = mark then
      if mark = quotationMark then multilineBasic more else multilineLiteral more
    else if mark = quotationMark then basic rest
    else literal rest
  | _ => if mark = quotationMark then basic rest else literal rest

/-- What follows `word` if the text starts with it. -/
def after? (word : String) (s : List Char) : Option (List Char) :=
  if word.toList.isPrefixOf s then some (s.drop word.length) else none

/-- A value that is a word. -/
def word (s : List Char) : Option (Value × List Char) :=
  ((after? "true" s).map (Value.boolean true, ·)).or <|
    ((after? "false" s).map (Value.boolean false, ·)).or <|
      ((after? "inf" s).or (after? "nan" s)).map (Value.float, ·)

/-- A number that has a sign. -/
def signed (negative : Bool) (s : List Char) : Option (Value × List Char) :=
  (((after? "inf" s).or (after? "nan" s)).map (Value.float, ·)).or <|
    if s.head?.any isDigit then number negative s else none

/-- A number, a date or a time; all of them start with a digit. -/
def numeral (s : List Char) : Option (Value × List Char) :=
  match s with
  | '0' :: 'x' :: rest => based 16 rest
  | '0' :: 'o' :: rest => based 8 rest
  | '0' :: 'b' :: rest => based 2 rest
  | _ =>
    if (s.dropWhile isDigit).head?.any fun c => c = '-' || c = ':' then datetime s
    else number false s

/-- A value that holds no other values. -/
def atom (s : List Char) : Option (Value × List Char) :=
  match s with
  | [] => none
  | c :: rest =>
    if c = quotationMark || c = apostrophe then
      (quoted c rest).map fun (s, rest) => (.string s, rest)
    else if c = '+' then signed false rest
    else if c = '-' then signed true rest
    else if isDigit c then numeral s
    else word s

mutual

/-- A value. -/
def value : Nat → List Char → Option (Value × List Char)
  | 0, _ => none
  | fuel + 1, s =>
    match skipSpace s with
    | '[' :: rest => (items fuel rest).map fun (items, rest) => (.array items, rest)
    | '{' :: rest => (pairs fuel rest).map fun (pairs, rest) => (.inline pairs, rest)
    | s => atom s

/-- The items of an array up to its end.  A comma may follow the last one. -/
def items : Nat → List Char → Option (List Value × List Char)
  | 0, _ => none
  | fuel + 1, s =>
    match skipTrivia s with
    | ']' :: rest => some ([], rest)
    | s => do
      let (item, rest) ← value fuel s
      match skipTrivia rest with
      | ']' :: rest => some ([item], rest)
      | ',' :: rest => do
        let (more, rest) ← items fuel rest
        some (item :: more, rest)
      | _ => none

/-- The pairs of an inline table up to its end.  A comma may follow the last one. -/
def pairs : Nat → List Char → Option (List (Path × Value) × List Char)
  | 0, _ => none
  | fuel + 1, s =>
    match skipTrivia s with
    | '}' :: rest => some ([], rest)
    | s => do
      let (path, rest) ← key fuel s
      match rest with
      | '=' :: rest => do
        let (value, rest) ← value fuel rest
        match skipTrivia rest with
        | '}' :: rest => some ([(path, value)], rest)
        | ',' :: rest => do
          let (more, rest) ← pairs fuel rest
          some ((path, value) :: more, rest)
        | _ => none
      | _ => none

end

/-! ### Statements -/

/-- A header or a key with its value. -/
def statement (fuel : Nat) (s : List Char) : Option (Statement × List Char) :=
  match s with
  | '[' :: '[' :: rest => do
    let (path, rest) ← key fuel rest
    match rest with
    | ']' :: ']' :: rest => some (.arrayTable path, rest)
    | _ => none
  | '[' :: rest => do
    let (path, rest) ← key fuel rest
    match rest with
    | ']' :: rest => some (.table path, rest)
    | _ => none
  | _ => do
    let (path, rest) ← key fuel s
    match rest with
    | '=' :: rest => do
      let (value, rest) ← value fuel rest
      some (.assign path value, rest)
    | _ => none

/-- The statements of a text. -/
def statements : Nat → List Char → Option (List Statement)
  | 0, _ => none
  | fuel + 1, s =>
    match skipTrivia s with
    | [] => some []
    | s => do
      let (first, rest) ← statement fuel s
      let more ← statements fuel (← lineEnd? rest)
      some (first :: more)

/-! ### Texts -/

/-- Whether a character must not occur in a text. -/
def isControl (c : Char) : Bool :=
  (c.toNat < 0x20 && c ≠ '\t' && c ≠ '\n' && c ≠ '\r') || c.toNat = 0x7F

/-- Whether a text has no control characters, and a line feed after every carriage return. -/
def isClean : List Char → Bool
  | [] => true
  | c :: rest =>
    !isControl c && (c ≠ '\r' || rest.head? = some '\n') && isClean rest

/-- The text without the byte order mark in front of it. -/
def dropByteOrderMark : Bytes → Bytes
  | 0xFF :: 0xFE :: rest => rest
  | 0xFE :: 0xFF :: rest => rest
  | 0xEF :: 0xBB :: 0xBF :: rest => rest
  | s => s

/-- Reads a text. -/
def parse? (text : Bytes) : Option (List Statement) := do
  let s ← Utf8.chars? (dropByteOrderMark text)
  if isClean s then statements (2 * s.length + 2) s else none

end TimeTape.Toml
