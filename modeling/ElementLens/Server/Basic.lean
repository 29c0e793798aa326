/-
The server and its work.

The server keeps the documents of a client analysed. An update of a document
is asked for whenever it may be out of date, and done once the document has
been left alone for a while: the settings of the document are found, the
document is refreshed, and its problems are published.

A client that can be asked for its settings is asked once per document; the
answer is kept until the settings change or the document is closed. Once the
conversation is over nothing more is sent, and the client cannot be asked.

* **`Server.update`** — an update of one document;
* **`Server.pass`** — lets time pass and does the updates that are due.
-/
import ElementLens.Debounce.Timeline
import ElementLens.Protocol.Message
import ElementLens.Session

namespace ElementLens

/-- What is around a server: the loader of the tokenizer, the files, and what
the client answers when it is asked for settings (`none` if its answer cannot
be used). -/
structure Surroundings where
  loader : Loader
  files : FileSystem
  configuration : Option (List Json)

/-- How far the conversation with the client is. -/
inductive Lifecycle where
  | beginning | ready | shutDown | over
deriving DecidableEq, Repr

/-- An update that is due at some time. -/
structure Alarm where
  due : Nat
  generation : Nat
  uri : Uri
deriving DecidableEq, Repr

/-- A server: what it knows of its client; the settings for clients that
cannot be asked; the session; the updates asked for, in the order in which
they are due; the time; the messages sent, the last one first. -/
structure Server where
  lifecycle : Lifecycle
  flags : ClientFlags
  settings : Settings
  session : Session
  debouncer : Debouncer Uri
  alarms : List Alarm
  clock : Nat
  outbox : List Message

namespace Server

/-- A server at the beginning. -/
def start : Server where
  lifecycle := .beginning
  flags := .none
  settings := .standard
  session := Session.empty Store.standardCapacity
  debouncer := Debouncer.empty
  alarms := []
  clock := 0
  outbox := []

/-- Whether the conversation is over. -/
def isOver (s : Server) : Bool := s.lifecycle = .over

/-- Sends a message, unless the conversation is over. -/
def send (s : Server) (m : Message) : Server :=
  if s.isOver then s else { s with outbox := m :: s.outbox }

/-- Asks for an update of a document. -/
def scheduleUpdate (s : Server) (uri : Uri) : Server :=
  let debouncer := s.debouncer.schedule uri
  let alarm : Alarm := ⟨s.clock + Debouncer.standardDelay, debouncer.generation, uri⟩
  { s with debouncer, alarms := s.alarms ++ [alarm] }

/-! ### Settings -/

/-- The settings of a document, if the client need not be asked. -/
def knownSettings (s : Server) (uri : Uri) : Option Settings × Server :=
  if s.flags.configuration then
    let (known, store) := s.session.store.settings uri
    (known, { s with session := s.session.withStore store })
  else (some s.settings, s)

/-- The settings in the answer of a client: those of its last item. -/
def settingsOfReply (reply : Option (List Json)) : Settings :=
  match reply with
  | none => .standard
  | some items => (items.getLast?.map Settings.ofValue).getD .standard

/-- Keeps the settings that the client has answered with. -/
def receiveSettings (s : Server) (uri : Uri) (settings : Settings) : Server :=
  { s with session := s.session.withStore (s.session.store.setSettings uri settings) }

/-- The settings of a document. -/
def documentSettings (s : Server) (around : Surroundings) (uri : Uri) : Settings × Server :=
  match s.knownSettings uri with
  | (some settings, s) => (settings, s)
  | (none, s) =>
    let settings := settingsOfReply (if s.isOver then none else around.configuration)
    (settings, (s.send (.askConfiguration uri)).receiveSettings uri settings)

/-! ### Updates -/

/-- Refreshes a document and publishes its problems. Nothing happens if it
was closed in the meantime. -/
def publish (s : Server) (around : Surroundings) (uri : Uri) (settings : Settings) : Server :=
  match s.session.refresh around.loader around.files uri settings with
  | (none, session) => { s with session }
  | (some found, session) => { s with session }.send (.publish uri found)

/-- Updates a document, if it is open. -/
def update (s : Server) (around : Surroundings) (uri : Uri) : Server :=
  if s.session.isOpen uri then
    let (settings, s) := s.documentSettings around uri
    s.publish around uri settings
  else s

/-- The time of an alarm has come: the document is updated, unless a newer
update was asked for. -/
def ring (around : Surroundings) (s : Server) (alarm : Alarm) : Server :=
  let debouncer := (s.debouncer.wake alarm.generation).enter alarm.generation
  let s := { s with clock := max s.clock alarm.due, debouncer }
  if debouncer.isRunning alarm.generation then
    let s := s.update around alarm.uri
    { s with debouncer := s.debouncer.finish alarm.generation }
  else s

/-- Lets time pass. What is due by the end of it is done. -/
def pass (s : Server) (around : Surroundings) (milliseconds : Nat) : Server :=
  let stop := s.clock + milliseconds
  let due := s.alarms.takeWhile fun a => a.due ≤ stop
  let s := due.foldl (ring around) { s with alarms := s.alarms.drop due.length }
  { s with clock := stop }

end Server

end ElementLens
