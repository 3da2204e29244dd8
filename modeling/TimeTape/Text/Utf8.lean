/-
Text as bytes.

Programs and documents are arbitrary byte sequences, usually but not always valid UTF-8.
`Utf8.decode` cuts a sequence into pieces: the characters it spells, and each byte that
is not part of a well-formed character on its own.  Nothing is lost, since writing the
pieces back gives the bytes again.
-/
namespace TimeTape

/-- A text or a program: any sequence of bytes. -/
abbrev Bytes := List UInt8

/-- The UTF-8 bytes of a string. -/
def Bytes.ofString (s : String) : Bytes :=
  s.toUTF8.toList

namespace Utf8

/-- The six payload bits of a continuation byte. -/
def payload? (b : UInt8) : Option Nat :=
  if b &&& 0xC0 = 0x80 then some (b.toNat % 64) else none

/--
The character numbered `n`.  Numbers below `least`, the first one that needs a sequence of
this length, are refused, and so are surrogates and numbers past the last character.
-/
def charFrom? (least n : Nat) : Option Char :=
  if least ≤ n ∧ n.isValidChar then some (Char.ofNat n) else none

/--
The character that starts at the byte `lead` when `rest` comes after it, with the number
of bytes of `rest` that belong to it.
-/
def character? (lead : UInt8) (rest : Bytes) : Option (Char × Nat) :=
  if lead < 0x80 then
    some (Char.ofNat lead.toNat, 0)
  else if lead < 0xC0 then
    none
  else if lead < 0xE0 then
    match rest with
    | a :: _ => do
      let x ← payload? a
      let c ← charFrom? 0x80 (lead.toNat % 32 * 64 + x)
      some (c, 1)
    | _ => none
  else if lead < 0xF0 then
    match rest with
    | a :: b :: _ => do
      let x ← payload? a
      let y ← payload? b
      let c ← charFrom? 0x800 ((lead.toNat % 16 * 64 + x) * 64 + y)
      some (c, 2)
    | _ => none
  else if lead < 0xF8 then
    match rest with
    | a :: b :: c :: _ => do
      let x ← payload? a
      let y ← payload? b
      let z ← payload? c
      let c ← charFrom? 0x10000 (((lead.toNat % 8 * 64 + x) * 64 + y) * 64 + z)
      some (c, 3)
    | _ => none
  else
    none

/-- A character of a text, or a byte that belongs to no character. -/
inductive Piece where
  | char (c : Char)
  | stray (byte : UInt8)
  deriving DecidableEq, Repr, Inhabited

/-- The bytes a piece stands for. -/
def Piece.bytes : Piece → Bytes
  | .char c => String.utf8EncodeChar c
  | .stray b => [b]

/-- The character a reader sees: a stray byte shows as U+FFFD, the replacement character. -/
def Piece.shown : Piece → Char
  | .char c => c
  | .stray _ => Char.ofNat 0xFFFD

/--
The pieces of a text whose first `skip` bytes belong to a character already taken.  The
count lets the recursion follow the bytes one by one.
-/
def decodeFrom : Nat → Bytes → List Piece
  | _, [] => []
  | skip + 1, _ :: rest => decodeFrom skip rest
  | 0, b :: rest =>
    match character? b rest with
    | some (c, more) => .char c :: decodeFrom more rest
    | none => .stray b :: decodeFrom 0 rest

/-- The pieces of a text, in order. -/
def decode (s : Bytes) : List Piece :=
  decodeFrom 0 s

/-- The bytes that a list of pieces stands for. -/
def encode (pieces : List Piece) : Bytes :=
  pieces.flatMap Piece.bytes

/-- The characters of a text, provided every byte belongs to one. -/
def chars? (s : Bytes) : Option (List Char) :=
  (decode s).mapM fun
    | .char c => some c
    | .stray _ => none

end Utf8

/-- The text as a string, if it is valid UTF-8. -/
def Bytes.toString? (s : Bytes) : Option String :=
  (Utf8.chars? s).map String.ofList

end TimeTape
