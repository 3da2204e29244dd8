/-
The messages of an editor.

A message is a method and its parameters.  `Message.decode` reads the methods that are
understood; a parameter of the wrong shape, anywhere, makes the whole message invalid.
Parameters that are left out read as empty or zero.
-/
import TimeTape.Document
import TimeTape.Server.Introduction

namespace TimeTape

/-- A change of a document's text. -/
inductive TextChange where
  /-- The whole text is replaced. -/
  | whole (text : String)
  /-- Only a part of it is. -/
  | partially (range : Range) (text : String)
  deriving DecidableEq, Repr

/-- A message that is understood. -/
inductive Message where
  /-- The editor introduces itself. -/
  | greeting
  /-- The editor has taken note of the answer. -/
  | greeted
  /-- The editor takes its leave. -/
  | farewell
  | setTrace
  | opened (uri text : String)
  | changed (uri : String) (changes : List TextChange)
  | closed (uri : String)
  | completion (uri : String) (position : Position)
  | hover (uri : String) (position : Position)
  | definition (uri : String) (position : Position)
  deriving DecidableEq, Repr

/-- Why a message is not read. -/
inductive MessageError where
  /-- The method is not known. -/
  | notSupported
  /-- The parameters do not fit the method. -/
  | invalidParams
  deriving DecidableEq, Repr

namespace Message

/-! ### The shapes of parameters -/

/-- A place in a document. -/
def positionShape : Shape :=
  .record [("line", .unsigned), ("character", .unsigned)]

/-- A part of a document. -/
def rangeShape : Shape :=
  .record [("start", positionShape), ("end", positionShape)]

/-- A change of a document's text. -/
def changeShape : Shape :=
  .record [("range", rangeShape), ("rangeLength", .unsigned), ("text", .text)]

/-- A document and a place in it, with other fields. -/
def placeShape (others : List (String × Shape)) : Shape := .record <|
  [("textDocument", .record [("uri", .text)]),
    ("position", positionShape),
    ("workDoneToken", Introduction.token)] ++ others

/-- The circumstances of a completion. -/
def triggerShape : Shape :=
  .record [("triggerKind", .signed), ("triggerCharacter", .text)]

/-! ### The parts of parameters -/

/-- A place in a document. -/
def position (fields : Fields) : Position where
  line := (fields.get "line").natural
  character := (fields.get "character").natural

/-- A part of a document. -/
def range (fields : Fields) : Range where
  start := position (fields.part "start")
  stop := position (fields.part "end")

/-- A change of a document's text.  Without a range it is one of the whole text. -/
def change (fields : Fields) : TextChange :=
  let text := (fields.get "text").text
  match fields.part? "range" with
  | some part => .partially (range part) text
  | none => .whole text

/-- The name of the document that the parameters are about. -/
def uri (fields : Fields) : String :=
  ((fields.part "textDocument").get "uri").text

/-! ### The methods -/

/-- The shape of the parameters of each method that is understood, and what they say. -/
def reader? : String → Option (Shape × (Fields → Message))
  | "initialize" => some (Introduction.shape, fun _ => greeting)
  | "initialized" => some (.record [], fun _ => greeted)
  | "$/setTrace" => some (.record [("value", .text)], fun _ => setTrace)
  | "textDocument/didOpen" =>
    some (.record [
        ("textDocument", .record <|
          Shape.texts ["uri", "languageId", "text"] ++ [("version", .signed)])],
      fun fields => opened (uri fields) ((fields.part "textDocument").get "text").text)
  | "textDocument/didChange" =>
    some (.record [
        ("textDocument", .record [("uri", .text), ("version", .signed)]),
        ("contentChanges", .list .unread),
        ("contentChanges", .latest (.list changeShape))],
      fun fields =>
        changed (uri fields) ((fields.latest "contentChanges").items.map fun c => change c.fields))
  | "textDocument/didClose" =>
    some (.record [("textDocument", .record [("uri", .text)])], fun fields => closed (uri fields))
  | "textDocument/completion" =>
    some (placeShape [("partialResultToken", Introduction.token), ("context", triggerShape)],
      fun fields => completion (uri fields) (position (fields.part "position")))
  | "textDocument/hover" =>
    some (placeShape [],
      fun fields => hover (uri fields) (position (fields.part "position")))
  | "textDocument/definition" =>
    some (placeShape [("partialResultToken", Introduction.token)],
      fun fields => definition (uri fields) (position (fields.part "position")))
  | _ => none

/-- Reads a message.  Taking leave needs no parameters; every other method does. -/
def decode (method : String) (params : Option Json) : Except MessageError Message :=
  if method = "shutdown" then .ok farewell
  else match reader? method with
    | none => .error .notSupported
    | some (shape, read) =>
      match params with
      | none => .error .invalidParams
      | some params =>
        if shape.fits [params] then .ok (read params.fields) else .error .invalidParams

end Message

end TimeTape
