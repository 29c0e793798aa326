/-
What an editor sends.

The parameters of the requests and notices that the server acts on. A member
that must be there and is not, or that has the wrong form, makes the whole
unreadable; members that nobody asks for are passed over, and an optional
member may be `null`. Parameters that take marks for progress reports are
always written as an object.
-/
import ElementLens.Document
import ElementLens.Protocol.Capabilities

namespace ElementLens

/-- A position. -/
def Position.ofJson? (j : Json) : Option Position := do
  let r ← j.record? ["line", "character"]
  some ⟨← r.member? Json.word? "line", ← r.member? Json.word? "character"⟩

/-- A range. -/
def Span.ofJson? (j : Json) : Option Span := do
  let r ← j.record? ["start", "end"]
  some ⟨← r.member? Position.ofJson? "start", ← r.member? Position.ofJson? "end"⟩

/-- A change of a text. -/
def TextEdit.ofJson? (j : Json) : Option TextEdit := do
  let r ← j.record? ["range", "rangeLength", "text"]
  let range ← r.optional? Span.ofJson? "range"
  let _ ← r.optional? Json.word? "rangeLength"
  some ⟨range, ← r.member? Json.string? "text"⟩

namespace Params

open Form Member

/-- A document that was opened. -/
structure Opened where
  uri : Uri
  version : Int
  text : String

/-- Changes of a document. -/
structure Changed where
  uri : Uri
  version : Int
  edits : List TextEdit

/-- What a client says of itself at the beginning. -/
def introduction : List Member := [
  maybe "processId" word,
  maybe "rootPath" text,
  ⟨"rootUri", .defaulted, orNull uri⟩,
  maybe "initializationOptions" anything,
  needed "capabilities" (record Capabilities.all),
  ⟨"trace", .defaulted, orNull (oneOf ["off", "messages", "verbose"])⟩,
  maybe "workspaceFolders" (list (record [needed "uri" uri, needed "name" text])),
  maybe "clientInfo" (record [needed "name" text, maybe "version" text]),
  maybe "locale" text]

/-- The flags of a client that introduces itself. -/
def introduced? (j : Json) : Option ClientFlags :=
  if record introduction j then
    (Capabilities.parts introduction (some j)).member? ClientFlags.ofCapabilities? "capabilities"
  else none

/-- Nothing is said when the client is ready. -/
def ready? (j : Json) : Option Unit :=
  if record [] j then some () else none

/-- A document that is named. -/
def named? (j : Json) : Option Uri := do
  let r ← j.record? ["uri"]
  r.member? Uri.ofJson? "uri"

/-- The document that the parameters speak of. -/
def document? (j : Json) : Option Uri := do
  let r ← j.record? ["textDocument"]
  r.member? named? "textDocument"

/-- A document that was opened. -/
def opened? (j : Json) : Option Opened := do
  let r ← j.record? ["textDocument"]
  let d ← r.member? (Json.record? ["uri", "languageId", "version", "text"]) "textDocument"
  let _ ← d.member? Json.string? "languageId"
  some ⟨← d.member? Uri.ofJson? "uri", ← d.member? Json.signedWord? "version",
    ← d.member? Json.string? "text"⟩

/-- Changes of a document. -/
def changed? (j : Json) : Option Changed := do
  let r ← j.record? ["textDocument", "contentChanges"]
  let d ← r.member? (Json.record? ["uri", "version"]) "textDocument"
  some ⟨← d.member? Uri.ofJson? "uri", ← d.member? Json.signedWord? "version",
    ← r.member? (Json.list? TextEdit.ofJson?) "contentChanges"⟩

/-- Changed settings. -/
def settings? (j : Json) : Option Json := do
  let r ← j.record? ["settings"]
  r.get? "settings"

/-- The marks for reports on the work and for parts of the answer. -/
def workDone : Member := maybe "workDoneToken" token

@[inherit_doc workDone]
def partialResult : Member := maybe "partialResultToken" token

/-- A position in a document, beside other members. -/
def place? (others : List Member) (j : Json) : Option (Uri × Position) := do
  if members others j then
    some (← j.member? named? "textDocument", ← j.member? Position.ofJson? "position")
  else none

/-- The place to show something for. -/
def hovered? : Json → Option (Uri × Position) := place? [workDone]

/-- The place of a name whose definition is asked for. -/
def defined? : Json → Option (Uri × Position) := place? [workDone, partialResult]

/-- The document whose problems are asked for. -/
def diagnosed? (j : Json) : Option Uri :=
  if members [maybe "identifier" text, maybe "previousResultId" text, workDone, partialResult] j
  then j.member? named? "textDocument"
  else none

end Params

end ElementLens
