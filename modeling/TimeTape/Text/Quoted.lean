/-
Quoted characters and texts.

Messages quote the glyph or the text they are about.  Printable characters stand for
themselves; the quote and the backslash get a backslash; the control characters with a
short name get that; all others are written by number, in two, four or eight hexadecimal
digits.  A byte that is not part of a character is written as two digits, so two different
texts are never quoted alike.
-/
import TimeTape.Text.Hex
import TimeTape.Text.Printable
import TimeTape.Text.Utf8

namespace TimeTape.Text

/-- How the character `c` is written between two `quote` characters. -/
def escape (quote c : Char) : String :=
  if c = quote ∨ c = '\\' then
    String.ofList ['\\', c]
  else if isPrintable c then
    String.singleton c
  else
    let n := c.toNat
    match n with
    | 0x07 => "\\a"
    | 0x08 => "\\b"
    | 0x0C => "\\f"
    | 0x0A => "\\n"
    | 0x0D => "\\r"
    | 0x09 => "\\t"
    | 0x0B => "\\v"
    | _ =>
      if n < 0x80 then "\\x" ++ hex 2 n
      else if n < 0x10000 then "\\u" ++ hex 4 n
      else "\\U" ++ hex 8 n

/-- The apostrophe, around a single character. -/
def apostrophe : Char := Char.ofNat 0x27

/-- The quotation mark, around a text. -/
def quotationMark : Char := Char.ofNat 0x22

/-- The character with code point `b`, in apostrophes. -/
def quoteGlyph (b : UInt8) : String :=
  String.singleton apostrophe ++ escape apostrophe (Char.ofNat b.toNat) ++
    String.singleton apostrophe

/-- How a piece of text is written between quotation marks. -/
def escapePiece : Utf8.Piece → String
  | .char c => escape quotationMark c
  | .stray b => "\\x" ++ hex 2 b.toNat

/-- The text in quotation marks. -/
def quote (s : Bytes) : String :=
  String.singleton quotationMark ++ String.join ((Utf8.decode s).map escapePiece) ++
    String.singleton quotationMark

/-- The string in quotation marks. -/
def quoteString (s : String) : String :=
  quote (Bytes.ofString s)

end TimeTape.Text
