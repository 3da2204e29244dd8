/-
Structured values as text.

The text has no white space between its parts.  Characters below the space, the quotation mark
and the backslash are escaped; every other character stands for itself.
-/
import TimeTape.Json
import TimeTape.Text.Quoted

namespace TimeTape.Json

open TimeTape.Text (hex quotationMark)

/-- How a character is written inside a string. -/
def escape (c : Char) : String :=
  if c = quotationMark || c = '\\' then String.ofList ['\\', c]
  else if c.toNat < 0x20 then "\\u" ++ hex 4 c.toNat
  else String.singleton c

/-- A string with quotation marks around it. -/
def renderString (s : String) : String :=
  String.singleton quotationMark ++ String.join (s.toList.map escape) ++
    String.singleton quotationMark

/-- A number.  One that is kept with places after the point is written with an exponent. -/
def renderNumber (mantissa : Int) (places : Nat) : String :=
  if places = 0 then toString mantissa else s!"{mantissa}e-{places}"

mutual

/-- A value as text. -/
def render : Json → String
  | null => "null"
  | bool true => "true"
  | bool false => "false"
  | number mantissa places => renderNumber mantissa places
  | string s => renderString s
  | array items => "[" ++ ",".intercalate (renderItems items) ++ "]"
  | object fields => "\x7b" ++ ",".intercalate (renderFields fields) ++ "\x7d"

/-- The items of a list as texts. -/
def renderItems : List Json → List String
  | [] => []
  | item :: more => item.render :: renderItems more

/-- The fields of a record as texts. -/
def renderFields : List (String × Json) → List String
  | [] => []
  | (name, value) :: more => (renderString name ++ ":" ++ value.render) :: renderFields more

end

end TimeTape.Json
