/-
Line breaks.

A line feed and a carriage return both break lines.  A program is kept without them: they
are dropped before it is run.
-/
import TimeTape.Text.Utf8

namespace TimeTape.Text

/-- The line feed, which ends a line of input. -/
def lineFeed : UInt8 := 0x0A

/-- The carriage return. -/
def carriageReturn : UInt8 := 0x0D

/-- Whether a byte breaks a line. -/
def isLineBreak (b : UInt8) : Bool :=
  b = lineFeed || b = carriageReturn

/-- The text without its line breaks. -/
def joinLines (text : Bytes) : Bytes :=
  text.filter fun b => !isLineBreak b

/-- The line without the line breaks at its end. -/
def trimLineEnd (line : Bytes) : Bytes :=
  (line.reverse.dropWhile isLineBreak).reverse

end TimeTape.Text
