/-
The shapes of structured values.

A shape says what may stand somewhere in a structured value.  Nothing at all may stand
anywhere, and a record may have more fields than its shape names.  Where several values are
given under one name all of them have to fit, and records count as one record; shapes under
which it is otherwise say so.
-/
import TimeTape.Decimal
import TimeTape.Json

namespace TimeTape

namespace Json

mutual

/-- Whether all numbers in a value are in the range of double-precision numbers. -/
def isInRange : Json → Bool
  | number mantissa places => !Decimal.overflows mantissa.natAbs (-(places : Int))
  | array items => areInRange items
  | object fields => fieldsAreInRange fields
  | _ => true

/-- Whether all numbers in a list are. -/
def areInRange : List Json → Bool
  | [] => true
  | item :: more => item.isInRange && areInRange more

/-- Whether all numbers in a record are. -/
def fieldsAreInRange : List (String × Json) → Bool
  | [] => true
  | (_, value) :: more => value.isInRange && fieldsAreInRange more

end

/-- Whether a value is a truth value, or nothing at all. -/
def isFlag : Json → Bool
  | bool _ => true
  | null => true
  | _ => false

/-- Whether a value is a string, or nothing at all. -/
def isText : Json → Bool
  | string _ => true
  | null => true
  | _ => false

/-- Whether a value is a whole number from `lo` to `hi`, or nothing at all. -/
def isWhole (lo hi : Int) : Json → Bool
  | number n 0 => lo ≤ n && n ≤ hi
  | null => true
  | _ => false

/-- Whether a value is a list, or nothing at all. -/
def isList : Json → Bool
  | array _ => true
  | null => true
  | _ => false

/-- Whether a value is a record, or nothing at all. -/
def isRecord : Json → Bool
  | object _ => true
  | null => true
  | _ => false

end Json

/-- What may stand somewhere in a structured value. -/
inductive Shape where
  /-- Any value, which is not looked at. -/
  | unread
  /-- Any value whose numbers are in the range of double-precision numbers. -/
  | anything
  | flag
  | text
  /-- A whole number, written without a fraction or an exponent. -/
  | whole (lo hi : Int)
  | list (item : Shape)
  | record (fields : List (String × Shape))
  | either (first second : Shape)
  /-- Of several values under one name only the last has to fit. -/
  | latest (shape : Shape)
  /-- Several values under one name have to fit one by one. -/
  | each (shape : Shape)

namespace Shape

/-- A number of 32 bits with a sign. -/
def signed : Shape := .whole (-2147483648) 2147483647

/-- A number of 32 bits without a sign. -/
def unsigned : Shape := .whole 0 4294967295

/-- Fields that hold truth values. -/
def flags (names : List String) : List (String × Shape) :=
  names.map (·, .flag)

/-- Fields that hold strings. -/
def texts (names : List String) : List (String × Shape) :=
  names.map (·, .text)

mutual

/-- Whether the values that are given under one name fit a shape. -/
def fits : Shape → List Json → Bool
  | .unread, _ => true
  | .anything, given => given.all Json.isInRange
  | .flag, given => given.all Json.isFlag
  | .text, given => given.all Json.isText
  | .whole lo hi, given => given.all (Json.isWhole lo hi)
  | .list item, given =>
    given.all fun value => value.isList && value.items.all fun i => fits item [i]
  | .record fields, given =>
    given.all Json.isRecord && fieldsFit fields (given.flatMap Json.fields)
  | .either first second, given =>
    given.all fun value => fits first [value] || fits second [value]
  | .latest shape, given => given.getLast?.all fun value => fits shape [value]
  | .each shape, given => given.all fun value => fits shape [value]

/-- Whether the fields of a record have the shapes that are listed for their names. -/
def fieldsFit : List (String × Shape) → Fields → Bool
  | [], _ => true
  | (name, shape) :: more, fields => fits shape (fields.under name) && fieldsFit more fields

end

end Shape

end TimeTape
