/-
What is wrong with a text that does not hold a structured value.

A text is checked byte by byte.  What may come next depends on the phase of the value that is
being read and on the lists and records around it.  The first byte that cannot come next is
the defect, together with where it stands; a text that never comes to an end is another.
-/
import TimeTape.Text.Quoted

namespace TimeTape.Json

/-- Where a byte stands that cannot stand there. -/
inductive Spot where
  | valueStart
  | keyStart
  | afterKey
  | afterField
  | afterItem
  | afterValue
  | inString
  | inEscape
  | inUnit
  | inNumber
  | afterPoint
  | inExponent
  /-- Inside a word, at a place where it goes on with another letter. -/
  | inWord (word : String) (expected : Char)
  /-- At the start of a list or record that has too many others around it. -/
  | tooDeep
  deriving DecidableEq, Repr

/-- A spot in words. -/
def Spot.text : Spot → String
  | valueStart => "looking for beginning of value"
  | keyStart => "looking for beginning of object key string"
  | afterKey => "after object key"
  | afterField => "after object key:value pair"
  | afterItem => "after array element"
  | afterValue => "after top-level value"
  | inString => "in string literal"
  | inEscape => "in string escape code"
  | inUnit => "in \\u hexadecimal character escape"
  | inNumber => "in numeric literal"
  | afterPoint => "after decimal point in numeric literal"
  | inExponent => "in exponent of numeric literal"
  | inWord word expected => s!"in literal {word} (expecting '{expected}')"
  | tooDeep => "exceeded max depth"

/-- Why a text does not hold a structured value. -/
inductive Defect where
  | unexpected (byte : UInt8) (spot : Spot)
  /-- The text is over before the value is. -/
  | unfinished
  deriving DecidableEq, Repr

/-- The wording of a defect. -/
def Defect.message : Defect → String
  | unexpected byte spot => s!"invalid character {Text.quoteGlyph byte} {spot.text}"
  | unfinished => "unexpected end of JSON input"

namespace Check

/-- A list or record that is not closed yet. -/
inductive Frame where
  /-- A record before the colon of a field. -/
  | key
  /-- A record after it. -/
  | field
  | list
  deriving DecidableEq, Repr

/-- How far the innermost value has been read. -/
inductive Phase where
  /-- It is about to start. -/
  | value
  /-- It is about to start, unless its list is closed at once. -/
  | itemOrEnd
  /-- The name of a field is about to start. -/
  | name
  /-- The name of a field is about to start, unless its record is closed at once. -/
  | nameOrEnd
  /-- It is over. -/
  | done
  | string
  /-- After the backslash of a string. -/
  | escape
  /-- In a code unit of a string, of which so many digits are missing. -/
  | unit (missing : Nat)
  /-- After the sign of a number. -/
  | sign
  /-- After a leading zero. -/
  | zero
  /-- In the digits before the point. -/
  | digits
  /-- After the point. -/
  | point
  /-- In the digits after it. -/
  | fraction
  /-- After the letter of an exponent. -/
  | exponentMark
  /-- After its sign. -/
  | exponentSign
  /-- In its digits. -/
  | exponent
  /-- In a word, of which these letters are missing. -/
  | word (word : String) (missing : List Char)
  deriving DecidableEq, Repr

/-- What has been read of a text. -/
structure State where
  phase : Phase := .value
  /-- The lists and records around the value, innermost first. -/
  frames : List Frame := []
  /-- How many they are. -/
  depth : Nat := 0
  deriving DecidableEq, Repr

/-- How many lists and records may stand around a value. -/
def deepest : Nat := 10000

/-- Whether a character may stand between the parts of a value. -/
def isBlank (c : Char) : Bool :=
  c = ' ' || c = '\t' || c = '\r' || c = '\n'

/-- Whether a character is a digit of a code unit. -/
def isHexDigit (c : Char) : Bool :=
  c.isDigit || ('a' ≤ c && c ≤ 'f') || ('A' ≤ c && c ≤ 'F')

namespace State

/-- The state in another phase. -/
def into (s : State) (phase : Phase) : Except Spot State :=
  .ok { s with phase }

/-- Opens a list or record. -/
def enter (s : State) (frame : Frame) (phase : Phase) : Except Spot State :=
  if s.depth < deepest then .ok { phase, frames := frame :: s.frames, depth := s.depth + 1 }
  else .error .tooDeep

/-- Closes the innermost list or record, which is then a value that is over. -/
def leave (s : State) : Except Spot State :=
  .ok { phase := .done, frames := s.frames.tail, depth := s.depth - 1 }

/-- Goes on in the innermost record. -/
def turn (s : State) (frame : Frame) (phase : Phase) : Except Spot State :=
  .ok { s with phase, frames := frame :: s.frames.tail }

/-- Takes a character where a value may start. -/
def start (s : State) (c : Char) : Except Spot State :=
  match c with
  | '{' => s.enter .key .nameOrEnd
  | '[' => s.enter .list .itemOrEnd
  | '-' => s.into .sign
  | '0' => s.into .zero
  | 't' => s.into (.word "true" ['r', 'u', 'e'])
  | 'f' => s.into (.word "false" ['a', 'l', 's', 'e'])
  | 'n' => s.into (.word "null" ['u', 'l', 'l'])
  | _ =>
    if isBlank c then s.into .value
    else if c = Text.quotationMark then s.into .string
    else if c.isDigit then s.into .digits
    else .error .valueStart

/-- Takes a character where the name of a field may start. -/
def startName (s : State) (c : Char) : Except Spot State :=
  if isBlank c then s.into .name
  else if c = Text.quotationMark then s.into .string
  else .error .keyStart

/-- Takes a character where a value is over. -/
def finish (s : State) (c : Char) : Except Spot State :=
  if isBlank c then s.into .done
  else match s.frames with
    | [] => .error .afterValue
    | .key :: _ => if c = ':' then s.turn .field .value else .error .afterKey
    | .field :: _ =>
      if c = ',' then s.turn .key .name
      else if c = '}' then s.leave
      else .error .afterField
    | .list :: _ =>
      if c = ',' then s.into .value
      else if c = ']' then s.leave
      else .error .afterItem

/-- Takes a character after the digits before the point. -/
def afterWhole (s : State) (c : Char) : Except Spot State :=
  if c = '.' then s.into .point
  else if c = 'e' || c = 'E' then s.into .exponentMark
  else s.finish c

/-- Takes the next character. -/
def next (s : State) (c : Char) : Except Spot State :=
  match s.phase with
  | .value => s.start c
  | .itemOrEnd =>
    if isBlank c then .ok s
    else if c = ']' then s.leave
    else s.start c
  | .name => s.startName c
  | .nameOrEnd =>
    if isBlank c then .ok s
    else if c = '}' then s.leave
    else s.startName c
  | .done => s.finish c
  | .string =>
    if c = Text.quotationMark then s.into .done
    else if c = '\\' then s.into .escape
    else if c < ' ' then .error .inString
    else .ok s
  | .escape =>
    if c = 'u' then s.into (.unit 4)
    else if c = Text.quotationMark || c = '\\' || c = '/' || c = 'b' || c = 'f' || c = 'n' ||
        c = 'r' || c = 't' then s.into .string
    else .error .inEscape
  | .unit missing =>
    if !isHexDigit c then .error .inUnit
    else if 1 < missing then s.into (.unit (missing - 1))
    else s.into .string
  | .sign =>
    if c = '0' then s.into .zero
    else if c.isDigit then s.into .digits
    else .error .inNumber
  | .zero => s.afterWhole c
  | .digits => if c.isDigit then .ok s else s.afterWhole c
  | .point => if c.isDigit then s.into .fraction else .error .afterPoint
  | .fraction =>
    if c.isDigit then .ok s
    else if c = 'e' || c = 'E' then s.into .exponentMark
    else s.finish c
  | .exponentMark =>
    if c = '+' || c = '-' then s.into .exponentSign
    else if c.isDigit then s.into .exponent
    else .error .inExponent
  | .exponentSign => if c.isDigit then s.into .exponent else .error .inExponent
  | .exponent => if c.isDigit then .ok s else s.finish c
  | .word _ [] => s.finish c
  | .word word (expected :: missing) =>
    if c = expected then s.into (if missing.isEmpty then .done else .word word missing)
    else .error (.inWord word expected)

/-- Whether the text may end here. -/
def isOver (s : State) : Bool :=
  s.phase = .done && s.frames.isEmpty

end State

/-- The defect in the rest of a text.  A blank is taken to follow its end. -/
def defectFrom? (s : State) : Bytes → Option Defect
  | [] =>
    if s.isOver then none
    else match s.next ' ' with
      | .error spot => some (.unexpected 0x20 spot)
      | .ok s => if s.isOver then none else some .unfinished
  | byte :: rest =>
    match s.next (Char.ofNat byte.toNat) with
    | .error spot => some (.unexpected byte spot)
    | .ok s => defectFrom? s rest

end Check

/-- The first defect of a text, if it does not hold exactly one structured value. -/
def defect? (text : Bytes) : Option Defect :=
  Check.defectFrom? {} text

end TimeTape.Json
