/-
What an editor is told depends on the latest text of the document it asks about.

A server keeps its documents in a table that every message may change.  What it ought to know of a
document can be said without a table, by looking back through the messages: the last one that decided
about the text, by opening, changing as a whole or closing, is the one that counts (`currentText`).
That the table holds just this, after any messages, is an induction from the latest message
backwards.

Documents do not interfere.  A reply to a message about a document depends on nothing but what the
table holds of it, and no message about another document changes that.  So two servers that agree on
a document go on agreeing, whatever one of them is told about others.
-/
import TimeTape.Server
import Mathlib.Data.List.Induction

namespace TimeTape

/-! ### Looking back through the messages -/

/-- The document that a message is about, if it is about one. -/
def Message.uri? : Message → Option String
  | .opened uri _ => some uri
  | .changed uri _ => some uri
  | .closed uri => some uri
  | .completion uri _ => some uri
  | .hover uri _ => some uri
  | .definition uri _ => some uri
  | _ => none

/-- The text that a change gives as a whole. -/
def TextChange.whole? : TextChange → Option String
  | .whole text => some text
  | .partially _ _ => none

/-- The text that changes leave behind, if the last of them gives it as a whole. -/
def wholeText? (changes : List TextChange) : Option String :=
  changes.getLast?.bind TextChange.whole?

/--
What a message decides about the text of the document it is about: that there is one, or that there
is none any more.  A message that is not about the text decides nothing.
-/
def Message.decision? : Message → Option (Option String)
  | .opened _ text => some (some text)
  | .changed _ changes => (wholeText? changes).map some
  | .closed _ => some none
  | _ => none

/-- What a message decides about the text of a given document. -/
def Message.decisionOn? (uri : String) (m : Message) : Option (Option String) :=
  if m.uri? = some uri then m.decision? else none

/-- The text of a document after some messages: what the last of them that decided about it says. -/
def currentText (uri : String) (history : List Message) : Option String :=
  (history.reverse.findSome? (Message.decisionOn? uri)).join

theorem currentText_concat (uri : String) (history : List Message) (m : Message) :
    currentText uri (history ++ [m]) = (m.decisionOn? uri).getD (currentText uri history) := by
  rw [currentText, List.reverse_append, List.reverse_singleton, List.singleton_append,
    List.findSome?_cons]
  cases m.decisionOn? uri with
  | none => rfl
  | some text => rfl

namespace Server

variable {s t : Server} {m : Message} {uri : String}

/-! ### One message -/

/-- The document with a given text. -/
def documentOf (text : String) : Document :=
  Document.ofText (Bytes.ofString text)

/-- The diagnostics of a text, as they are sent for a document. -/
def publicationOf (uri text : String) : Publication :=
  { uri, diagnostics := (documentOf text).diagnostics }

/-- What there is to say about a place in a text; without a text there is nothing. -/
def hoverIn (text : Option String) (position : Position) : Answer :=
  ((text.map documentOf).bind fun d => (d.index? position).bind d.hover?).elim .nothing .hover

/-- Where the partner of the bracket at a place in a text is; without a text there is nothing. -/
def definitionIn (uri : String) (text : Option String) (position : Position) : Answer :=
  ((text.map documentOf).bind fun d => (d.index? position).bind (d.definition? uri)).elim .nothing
    fun l => .locations [l]

/-- What the server says to changes depends on the last of them. -/
theorem receive_changed (s : Server) (uri : String) (changes : List TextChange) :
    s.receive (.changed uri changes) =
      (wholeText? changes).elim (s, { answer := .ok .nothing }) (s.store uri) := by
  rw [receive, wholeText?]
  cases changes.getLast? with
  | none => rfl
  | some change => cases change <;> rfl

theorem getElem?_store (s : Server) (uri uri' text : String) :
    (s.store uri' text).1.documents[uri]? =
      if uri' = uri then some (documentOf text) else s.documents[uri]? := by
  rw [store, Std.TreeMap.getElem?_insert]
  simp [documentOf]

/-- A message changes what is held of a document as it decides about its text, and not otherwise. -/
theorem getElem?_receive (s : Server) (m : Message) (uri : String) :
    (s.receive m).1.documents[uri]? =
      ((m.decisionOn? uri).map (Option.map documentOf)).getD s.documents[uri]? := by
  unfold Message.decisionOn?
  cases m with
  | opened uri' text =>
      simp only [receive, getElem?_store, Message.uri?, Option.some.injEq]
      split <;> rfl
  | changed uri' changes =>
      simp only [receive_changed, Message.uri?, Message.decision?, Option.some.injEq]
      cases wholeText? changes with
      | none => split <;> rfl
      | some text =>
          simp only [Option.elim_some, getElem?_store]
          split <;> rfl
  | closed uri' =>
      simp only [receive, Std.TreeMap.getElem?_erase, Std.compare_eq_iff_eq, Message.uri?,
        Option.some.injEq]
      split <;> rfl
  | _ => split <;> rfl

/-- A message about another document changes nothing of this one. -/
theorem getElem?_receive_of_ne (s : Server) (h : m.uri? ≠ some uri) :
    (s.receive m).1.documents[uri]? = s.documents[uri]? := by
  rw [getElem?_receive, Message.decisionOn?, if_neg h]
  rfl

/-- The reply to a message about a document depends on nothing but that document. -/
theorem reply_congr (h : m.uri? = some uri) (hst : s.documents[uri]? = t.documents[uri]?) :
    (s.receive m).2 = (t.receive m).2 := by
  cases m with
  | changed uri' changes =>
      rw [receive_changed, receive_changed]
      cases wholeText? changes <;> rfl
  | hover uri' position =>
      obtain rfl : uri' = uri := Option.some.inj h
      simp only [receive, find?, hst]
  | definition uri' position =>
      obtain rfl : uri' = uri := Option.some.inj h
      simp only [receive, find?, hst]
  | _ => rfl

/-- What is sent besides a reply is about the document that the message is about. -/
theorem uri_of_sent {p : Publication} (h : p ∈ (s.receive m).2.sent) : m.uri? = some p.uri := by
  cases m with
  | opened uri' text =>
      rw [List.mem_singleton.mp h]
      rfl
  | changed uri' changes =>
      rw [receive_changed] at h
      cases hwhole : wholeText? changes with
      | none =>
          rw [hwhole] at h
          cases h
      | some text =>
          rw [hwhole] at h
          rw [List.mem_singleton.mp h]
          rfl
  | closed uri' =>
      rw [List.mem_singleton.mp h]
      rfl
  | _ => cases h

/-! ### Any number of messages -/

/-- The server after some messages. -/
def after (s : Server) (history : List Message) : Server :=
  history.foldl (fun s m => (s.receive m).1) s

/-- The replies to some messages, in order. -/
def replies (s : Server) : List Message → List Reply
  | [] => []
  | m :: rest => (s.receive m).2 :: replies (s.receive m).1 rest

theorem after_concat (s : Server) (history : List Message) (m : Message) :
    s.after (history ++ [m]) = ((s.after history).receive m).1 := by
  rw [after, List.foldl_append]
  rfl

/-- The reply to a message is given by the server that the messages before it have left. -/
theorem getElem?_replies (before : List Message) (m : Message) (rest : List Message) :
    ∀ s : Server, (s.replies (before ++ m :: rest))[before.length]? =
      some ((s.after before).receive m).2 := by
  induction before with
  | nil => intro s; rfl
  | cons first before ih =>
      intro s
      exact ih (s.receive first).1

/-- **The server holds the current text of every document, and of no other.** -/
theorem getElem?_after (uri : String) (history : List Message) :
    (after {} history).documents[uri]? = (currentText uri history).map documentOf := by
  induction history using List.reverseRecOn with
  | nil => exact Std.TreeMap.getElem?_emptyc
  | append_singleton history m ih =>
      rw [after_concat, getElem?_receive, ih, currentText_concat]
      cases m.decisionOn? uri <;> rfl

/-- What is looked up at a place is found in the text that the server holds. -/
theorem find?_bind {α : Type} {text : Option String}
    (h : s.documents[uri]? = text.map documentOf) (position : Position)
    (f : Document → Nat → Option α) :
    (s.find? uri position).bind (fun e => f e.1 e.2) =
      (text.map documentOf).bind fun d => (d.index? position).bind (f d) := by
  rw [find?, h]
  cases text with
  | none => rfl
  | some text => cases hindex : (documentOf text).index? position <;> simp [hindex]

theorem reply_hover {text : Option String} (h : s.documents[uri]? = text.map documentOf)
    (position : Position) :
    (s.receive (.hover uri position)).2 = { answer := .ok (hoverIn text position) } := by
  rw [hoverIn, ← find?_bind h]
  rfl

theorem reply_definition {text : Option String} (h : s.documents[uri]? = text.map documentOf)
    (position : Position) :
    (s.receive (.definition uri position)).2 =
      { answer := .ok (definitionIn uri text position) } := by
  rw [definitionIn, ← find?_bind h]
  rfl

/-! ### Documents do not interfere -/

/-- Whether a message is about a document. -/
def isAbout (uri : String) (m : Message) : Bool :=
  m.uri? = some uri

/-- Servers that agree on a document go on agreeing when both are told about it. -/
theorem getElem?_receive_congr (m : Message) (hst : s.documents[uri]? = t.documents[uri]?) :
    (s.receive m).1.documents[uri]? = (t.receive m).1.documents[uri]? := by
  rw [getElem?_receive, getElem?_receive, hst]

theorem replies_filter (history : List Message) :
    ∀ s t : Server, s.documents[uri]? = t.documents[uri]? →
      t.replies (history.filter (isAbout uri)) =
        ((history.zip (s.replies history)).filter fun e => isAbout uri e.1).map Prod.snd := by
  induction history with
  | nil => intro s t _; rfl
  | cons m rest ih =>
      intro s t hst
      rw [replies, List.zip_cons_cons]
      by_cases h : m.uri? = some uri
      · have habout : isAbout uri m = true := by simpa [isAbout] using h
        simp only [List.filter_cons, if_pos habout, List.map_cons, replies]
        rw [reply_congr h hst.symm, ih _ _ (getElem?_receive_congr m hst)]
      · have habout : ¬isAbout uri m = true := by simpa [isAbout] using h
        -- Only the one server hears of it, and it stays what it was as to this document.
        simp only [List.filter_cons, if_neg habout]
        exact ih _ t ((getElem?_receive_of_ne s h).trans hst)

theorem sent_filter (history : List Message) :
    ∀ s t : Server, s.documents[uri]? = t.documents[uri]? →
      (t.replies (history.filter (isAbout uri))).flatMap Reply.sent =
        ((s.replies history).flatMap Reply.sent).filter (·.uri = uri) := by
  induction history with
  | nil => intro s t _; rfl
  | cons m rest ih =>
      intro s t hst
      rw [replies, List.flatMap_cons, List.filter_append]
      by_cases h : m.uri? = some uri
      · have habout : isAbout uri m = true := by simpa [isAbout] using h
        have hown : (s.receive m).2.sent.filter (·.uri = uri) = (s.receive m).2.sent := by
          rw [List.filter_eq_self]
          intro p hp
          have huri := (uri_of_sent hp).symm.trans h
          simpa using huri
        rw [List.filter_cons_of_pos habout, replies, List.flatMap_cons, hown,
          reply_congr h hst.symm, ih _ _ (getElem?_receive_congr m hst)]
      · have habout : ¬isAbout uri m = true := by simpa [isAbout] using h
        have hnone : (s.receive m).2.sent.filter (·.uri = uri) = [] := by
          rw [List.filter_eq_nil_iff]
          intro p hp huri
          apply h
          rw [uri_of_sent hp, of_decide_eq_true huri]
        rw [List.filter_cons_of_neg habout, hnone, List.nil_append]
        exact ih _ t ((getElem?_receive_of_ne s h).trans hst)

/--
**The server answers from the current text of each document, and documents do not interfere.**
Whatever messages came before and come after, a hover or a definition is what the current text of its
document gives.  Opening a document or giving it a text as a whole sends the diagnostics of that text
once, closing it sends empty ones once, and nothing else sends any.  If all messages about other
documents are left out, the replies to the rest stay what they were, and so does everything that is
sent about the document.
-/
theorem answers_follow_current_text (uri : String) :
    (∀ before rest,
      let replyTo := fun m => (replies {} (before ++ m :: rest))[before.length]?
      let text := currentText uri before
      (∀ position, replyTo (.hover uri position) = some { answer := .ok (hoverIn text position) }) ∧
      (∀ position, replyTo (.definition uri position) =
        some { answer := .ok (definitionIn uri text position) }) ∧
      (∀ position, replyTo (.completion uri position) =
        some { answer := .ok (.completions completions) }) ∧
      (∀ given, replyTo (.opened uri given) =
        some { sent := [publicationOf uri given], answer := .ok .nothing }) ∧
      (∀ changes, replyTo (.changed uri changes) =
        some
          { sent := ((wholeText? changes).map (publicationOf uri)).toList
            answer := .ok .nothing }) ∧
      replyTo (.closed uri) =
        some { sent := [{ uri, diagnostics := [] }], answer := .ok .nothing }) ∧
    ∀ history,
      let own := history.filter (isAbout uri)
      replies {} own =
        ((history.zip (replies {} history)).filter fun e => isAbout uri e.1).map Prod.snd ∧
      (replies {} own).flatMap Reply.sent =
        ((replies {} history).flatMap Reply.sent).filter (·.uri = uri) := by
  constructor
  · intro before rest replyTo text
    have hreply : ∀ m, replyTo m = some ((after {} before).receive m).2 :=
      fun m => getElem?_replies before m rest {}
    have hcurrent := getElem?_after uri before
    simp only [hreply]
    refine ⟨?_, ?_, fun _ => rfl, fun _ => rfl, ?_, rfl⟩
    · intro position
      rw [reply_hover hcurrent]
    · intro position
      rw [reply_definition hcurrent]
    · intro changes
      rw [receive_changed]
      cases wholeText? changes <;> rfl
  · intro history own
    exact ⟨replies_filter history {} {} rfl, sent_filter history {} {} rfl⟩

end Server

end TimeTape
