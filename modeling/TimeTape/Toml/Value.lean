/-
The data of a TOML text.

A text is a list of statements, in order: headers that open a table, and keys with their
values.  Values that no setting of this program can take, such as dates and fractions, are
known only by their kind.
-/
namespace TimeTape.Toml

/-- A dotted key. -/
abbrev Path := List String

/-- A value as it is written. -/
inductive Value where
  | string (s : String)
  | integer (n : Int)
  | boolean (b : Bool)
  /-- A number with a fraction or an exponent, an infinity, or no number at all. -/
  | float
  /-- A date, a time, or both. -/
  | datetime
  | array (items : List Value)
  | inline (pairs : List (Path × Value))
  deriving Inhabited

/-- Whether a value is an array. -/
def Value.isArray : Value → Bool
  | array _ => true
  | _ => false

/-- A line, or a group of lines, of a text. -/
inductive Statement where
  /-- The table that the following keys belong to. -/
  | table (path : Path)
  /-- The same for one more table in an array of them. -/
  | arrayTable (path : Path)
  | assign (path : Path) (value : Value)
  deriving Inhabited

end TimeTape.Toml
