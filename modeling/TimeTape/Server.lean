/-
The language server.

A server keeps the documents that an editor has opened and answers questions about them.
Every message gets a reply, and some make the server send the diagnostics of a document.
-/
import Std.Data.TreeMap
import TimeTape.Document.Advice
import TimeTape.Server.Message

namespace TimeTape

/-- The name under which the server reports. -/
def serverName : String := "chrono-lsp"

/-- The version of the server. -/
def serverVersion : String := "0.1.0"

/-- The diagnostics of a document, sent to the editor. -/
structure Publication where
  uri : String
  diagnostics : List Diagnostic
  deriving DecidableEq, Repr

/-- The answer to a message. -/
inductive Answer where
  /-- There is nothing to say. -/
  | nothing
  /-- What the server is able to do. -/
  | abilities
  | completions (items : List Completion)
  | hover (hover : Hover)
  | locations (locations : List Location)
  deriving DecidableEq, Repr

/-- Why a message got no answer. -/
inductive ServerError where
  /-- The editor has not introduced itself, or has taken its leave. -/
  | notGreeted
  /-- The message could not be read. -/
  | unreadable (error : MessageError)
  deriving DecidableEq, Repr

/-- The reply to a message, with what was sent besides. -/
structure Reply where
  sent : List Publication := []
  answer : Except ServerError Answer

/-- A server and the documents it knows. -/
structure Server where
  /-- Whether the editor has introduced itself. -/
  greeted : Bool := false
  documents : Std.TreeMap String Document := ∅

namespace Server

/-- Takes a text as the current one of a document and publishes its diagnostics. -/
def store (s : Server) (uri text : String) : Server × Reply :=
  let document := Document.ofText (Bytes.ofString text)
  ({ s with documents := s.documents.insert uri document },
    { sent := [{ uri, diagnostics := document.diagnostics }], answer := .ok .nothing })

/-- The document and the index at a place, if there is a program byte. -/
def find? (s : Server) (uri : String) (position : Position) : Option (Document × Nat) := do
  let document ← s.documents[uri]?
  return (document, ← document.index? position)

/-- Replies to a message. -/
def receive (s : Server) : Message → Server × Reply
  | .greeting => ({ s with greeted := true }, { answer := .ok .abilities })
  | .greeted => (s, { answer := .ok .nothing })
  | .farewell => ({ s with greeted := false }, { answer := .ok .nothing })
  | .setTrace => (s, { answer := .ok .nothing })
  | .opened uri text => s.store uri text
  | .changed uri changes =>
    match changes.getLast? with
    | some (.whole text) => s.store uri text
    | _ => (s, { answer := .ok .nothing })
  | .closed uri =>
    ({ s with documents := s.documents.erase uri },
      { sent := [{ uri, diagnostics := [] }], answer := .ok .nothing })
  | .completion .. => (s, { answer := .ok (.completions completions) })
  | .hover uri position =>
    let found := (s.find? uri position).bind fun (d, i) => d.hover? i
    (s, { answer := .ok (found.elim .nothing .hover) })
  | .definition uri position =>
    let found := (s.find? uri position).bind fun (d, i) => d.definition? uri i
    (s, { answer := .ok (found.elim .nothing fun l => .locations [l]) })

/-- The method by which an editor introduces itself. -/
def greetingMethod : String := "initialize"

/-- Reads a message and replies to it.  Before the introduction nothing else is read. -/
def handle (s : Server) (method : String) (params : Option Json) : Server × Reply :=
  if !s.greeted && method ≠ greetingMethod then (s, { answer := .error .notGreeted })
  else match Message.decode method params with
    | .error e => (s, { answer := .error (.unreadable e) })
    | .ok message => s.receive message

end Server

end TimeTape
