/-
Structured values, as the parameters of a message.

A number is kept as its digits and the number of them after the decimal point, so that a
whole number written with a fraction can be told from one written without.

The names in a record are compared without regard to letter case, so that several of them may
stand for the same thing.  What is given under one name is then a list of values, in order.
-/
import TimeTape.Text.Folding

namespace TimeTape

/-- A structured value. -/
inductive Json where
  | null
  | bool (b : Bool)
  /-- The number `mantissa / 10 ^ places`. -/
  | number (mantissa : Int) (places : Nat)
  | string (s : String)
  | array (items : List Json)
  | object (fields : List (String × Json))
  deriving Inhabited

namespace Json

/-- Whether a value is there at all. -/
def isPresent : Json → Bool
  | null => false
  | _ => true

/-- The text of a string; anything else has none. -/
def text : Json → String
  | string s => s
  | _ => ""

/-- The value of a natural number; anything else reads as zero. -/
def natural : Json → Nat
  | number n 0 => n.toNat
  | _ => 0

/-- The items of a list; anything else has none. -/
def items : Json → List Json
  | array items => items
  | _ => []

/-- The fields of a record; anything else has none. -/
def fields : Json → List (String × Json)
  | object fields => fields
  | _ => []

end Json

/-- The fields of a record, or of several records that count as one. -/
abbrev Fields := List (String × Json)

namespace Fields

/-- Everything that is given under a name, in order. -/
def under (fields : Fields) (name : String) : List Json :=
  fields.filterMap fun f => if Text.sameFolded name f.1 then some f.2 else none

/-- The last thing that is given under a name. -/
def latest (fields : Fields) (name : String) : Json :=
  (fields.under name).getLast?.getD .null

/-- The last thing that is given under a name and is there at all. -/
def get (fields : Fields) (name : String) : Json :=
  ((fields.under name).filter Json.isPresent).getLast?.getD .null

/-- The record under a name.  Several of them count as one. -/
def part (fields : Fields) (name : String) : Fields :=
  (fields.under name).flatMap Json.fields

/-- The record under a name, if there is one.  Nothing at all takes back what came before it. -/
def part? (fields : Fields) (name : String) : Option Fields :=
  match ((fields.under name).reverse.takeWhile Json.isPresent).reverse with
  | [] => none
  | given => some (given.flatMap Json.fields)

end Fields

end TimeTape
