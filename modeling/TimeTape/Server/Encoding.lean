/-
Answers as structured values.

What the server says to an editor is written as records with fixed field names.  Severities,
kinds and the way in which texts are sent are numbers.
-/
import TimeTape.Server

namespace TimeTape

/-- A whole number. -/
def Json.ofNat (n : Nat) : Json :=
  .number n 0

/-- A place. -/
def Position.toJson (p : Position) : Json :=
  .object [("line", .ofNat p.line), ("character", .ofNat p.character)]

/-- A part of a document. -/
def Range.toJson (r : Range) : Json :=
  .object [("start", r.start.toJson), ("end", r.stop.toJson)]

/-- The number of a severity. -/
def Severity.code : Severity → Nat
  | .warning => 2
  | .information => 3

/-- A remark on a part of a document. -/
def Diagnostic.toJson (d : Diagnostic) : Json :=
  .object [("range", d.range.toJson), ("severity", .ofNat d.severity.code),
    ("source", .string serverName), ("message", .string d.message)]

/-- An explanation. -/
def Hover.toJson (h : Hover) : Json :=
  .object [("contents", .object [("kind", .string "markdown"), ("value", .string h.text)]),
    ("range", h.range.toJson)]

/-- A part of a named document. -/
def Location.toJson (l : Location) : Json :=
  .object [("uri", .string l.uri), ("range", l.range.toJson)]

/-- The number by which completions are marked as operators. -/
def Completion.kind : Nat := 24

/-- A text that an editor may insert. -/
def Completion.toJson (c : Completion) : Json :=
  .object [("label", .string c.label), ("kind", .ofNat kind), ("detail", .string c.detail),
    ("documentation", .string c.documentation), ("insertText", .string c.label)]

/-- What the server is able to do.  Texts are sent to it as a whole. -/
def abilities : Json :=
  .object
    [("capabilities", .object
      [("completionProvider", .object []),
       ("definitionProvider", .bool true),
       ("hoverProvider", .bool true),
       ("textDocumentSync", .object [("change", .ofNat 1), ("openClose", .bool true)])]),
     ("serverInfo", .object [("name", .string serverName), ("version", .string serverVersion)])]

/-- The answer to a message. -/
def Answer.toJson : Answer → Json
  | .nothing => .null
  | .abilities => TimeTape.abilities
  | .completions items => .array (items.map Completion.toJson)
  | .hover h => h.toJson
  | .locations l => .array (l.map Location.toJson)

/-- The method by which diagnostics are sent. -/
def Publication.method : String := "textDocument/publishDiagnostics"

/-- The parameters with which diagnostics are sent. -/
def Publication.params (p : Publication) : Json :=
  .object [("uri", .string p.uri), ("diagnostics", .array (p.diagnostics.map Diagnostic.toJson))]

/-- What is wrong with a message of the given method. -/
def ServerError.message (method : String) : ServerError → String
  | .notGreeted => "server not initialized"
  | .unreadable .notSupported => "method not supported: " ++ method
  | .unreadable .invalidParams => "invalid params"

end TimeTape
