/-
A conversation with an editor.

Messages go both ways as records in text form, each with a header that gives its length in
bytes.  A message that has an id is answered under that id; one without is only carried out.
Diagnostics that a message causes are sent before its answer.
-/
import TimeTape.Json.Parser
import TimeTape.Json.Printer
import TimeTape.Server.Encoding
import TimeTape.Text.Blank
import TimeTape.Text.Number

namespace TimeTape

/-- A message of an editor as it is sent. -/
structure Request where
  id : Option Json
  method : String
  params : Option Json

/-- The message that a record describes. -/
def Request.ofJson? : Json → Option Request
  | .object fields =>
    match fields.lookup "method" with
    | some (.string method) =>
      some { id := fields.lookup "id", method, params := fields.lookup "params" }
    | _ => none
  | _ => none

/-- A record that is sent, marked with the version of the conversation's rules. -/
def Json.outgoing (fields : List (String × Json)) : Json :=
  .object (("jsonrpc", .string "2.0") :: fields)

/-- The number of an error. -/
def ServerError.code : ServerError → Int
  | .notGreeted => -32600
  | .unreadable .notSupported => -32601
  | .unreadable .invalidParams => -32602

/-- Diagnostics as they are sent. -/
def Publication.toJson (p : Publication) : Json :=
  .outgoing [("method", .string Publication.method), ("params", p.params)]

/-- The method by which an editor ends the conversation. -/
def closingMethod : String := "exit"

namespace Server

/-- The answer to a message that has an id. -/
def answerTo (id : Json) (method : String) : Except ServerError Answer → Json
  | .ok answer => .outgoing [("id", id), ("result", answer.toJson)]
  | .error e =>
    .outgoing
      [("id", id),
       ("error", .object [("code", .number e.code 0), ("message", .string (e.message method))])]

/-- Carries a message out; gives what is sent to the editor, in order. -/
def converse (s : Server) (r : Request) : Server × List Json :=
  let (s, reply) := s.handle r.method r.params
  (s, reply.sent.map Publication.toJson ++
    (r.id.map fun id => answerTo id r.method reply.answer).toList)

end Server

namespace Frame

/-- A record with its header. -/
def render (j : Json) : Bytes :=
  let body := Bytes.ofString j.render
  Bytes.ofString s!"Content-Length: {body.length}\r\n\r\n" ++ body

/-- The length that a line of a header gives, if it is the one that does. -/
def length? (line : Bytes) : Option Nat :=
  let (name, value) := line.span (· ≠ 0x3A)
  if (Text.trim name).map Text.lowerByte = Bytes.ofString "content-length" then
    Text.decimal? (Text.trim (value.drop 1))
  else none

end Frame

end TimeTape
