/-
White space.

`isBlank` is Unicode's property White_Space, and `trim` drops white space from both ends of
a text.  A byte that is not part of a character is not white space.
-/
import TimeTape.Text.Utf8

namespace TimeTape.Text

/-- Whether `c` has the property White_Space. -/
def isBlank (c : Char) : Bool :=
  let n := c.toNat
  (0x09 ≤ n && n ≤ 0x0D) || n = 0x20 || n = 0x85 || n = 0xA0 || n = 0x1680 ||
    (0x2000 ≤ n && n ≤ 0x200A) || n = 0x2028 || n = 0x2029 || n = 0x202F || n = 0x205F ||
    n = 0x3000

/-- Whether a piece of text is a character of white space. -/
def isBlankPiece : Utf8.Piece → Bool
  | .char c => isBlank c
  | .stray _ => false

/-- The list without the blank elements at its start and at its end. -/
def trimBy {α : Type} (blank : α → Bool) (s : List α) : List α :=
  ((s.dropWhile blank).reverse.dropWhile blank).reverse

/-- The text without the white space at its start and at its end. -/
def trim (s : Bytes) : Bytes :=
  Utf8.encode (trimBy isBlankPiece (Utf8.decode s))

end TimeTape.Text
