/-
The conversation with a client.

A client introduces itself first; until then every request is refused and
every notice is passed over. After it has asked the server to shut down the
same holds for good, but updates that were asked for are still done. Methods
that the protocol does not have are refused at any time, except that those
whose name begins with `$/` are passed over in silence. A notice with
parameters that cannot be read is passed over. The client ends the
conversation by `exit`; nothing is answered after that.

* **`Server.request`** — the answer to a request;
* **`Server.notice`** — what a notice does.
-/
import ElementLens.Protocol.Unoffered
import ElementLens.Server.Basic

namespace ElementLens

namespace Server

/-- The answer to a request. -/
abbrev Reply := Except Refusal Json

/-- The refusal of a request that comes too early or too late. -/
def refusal? (s : Server) : Option Refusal :=
  match s.lifecycle with
  | .beginning => some .notInitialized
  | .ready => none
  | .shutDown | .over => some .invalidRequest

/-! ### Requests -/

/-- The client introduces itself. -/
def introduce (s : Server) (params : Option Json) : Reply × Server :=
  if s.lifecycle = .beginning then
    match params.bind Params.introduced? with
    | none => (.error .invalidParams, s)
    | some flags => (.ok (introduction flags), { s with lifecycle := .ready, flags })
  else (.error .invalidRequest, s)

/-- The client asks the server to shut down. There are no parameters. -/
def shutdown (s : Server) (params : Option Json) : Reply × Server :=
  match s.refusal? with
  | some r => (.error r, s)
  | none =>
    (if params.isSome then .error .invalidParams else .ok .null,
      { s with lifecycle := .shutDown })

/-- Where the tag name at a position is defined. -/
def definition (s : Server) (uri : Uri) (p : Position) : Json × Server :=
  let (link, session) := s.session.definition uri p false
  (.ofOption (link.map fun l => .array [l.toJson]), { s with session })

/-- What is shown for the tag name at a position. -/
def hover (s : Server) (uri : Uri) (p : Position) : Json × Server :=
  let (found, session) := s.session.hover uri p false
  (.ofOption (found.map Hover.toJson), { s with session })

/-- The problems of a document as they are known. -/
def diagnostic (s : Server) (around : Surroundings) (uri : Uri) : Json × Server :=
  if s.session.isOpen uri then
    let (settings, s) := s.documentSettings around uri
    let (found, session) := s.session.diagnostics uri settings
    (Diagnostic.report found, { s with session })
  else (Diagnostic.report [], s)

/-- Answers a request if its parameters can be read. -/
def withParams {α : Type} (s : Server) (params : Option Json) (read : Json → Option α)
    (answer : α → Json × Server) : Reply × Server :=
  match params.bind read with
  | none => (.error .invalidParams, s)
  | some a =>
    let (result, s) := answer a
    (.ok result, s)

/-- A request, once the conversation has begun. -/
def answer (s : Server) (around : Surroundings) (method : String) (params : Option Json) :
    Reply × Server :=
  match method with
  | "textDocument/definition" => s.withParams params Params.defined? fun (u, p) => s.definition u p
  | "textDocument/hover" => s.withParams params Params.hovered? fun (u, p) => s.hover u p
  | "textDocument/diagnostic" =>
    s.withParams params Params.diagnosed? fun u => s.diagnostic around u
  | _ =>
    match unoffered.lookup method with
    | some form =>
      if params.any form then (.error .methodNotFound, s) else (.error .invalidParams, s)
    | none => (.error .invalidRequest, s)

/-- Whether the protocol has a method by a name. -/
def hasMethod (name : String) : Bool :=
  ["textDocument/definition", "textDocument/hover", "textDocument/diagnostic"].contains name
    || noticeNames.contains name || (unoffered.lookup name).isSome

/-- Ends the conversation. -/
def finish (s : Server) : Server := { s with lifecycle := .over }

/-- A request of the client while the conversation lasts. -/
def respond (s : Server) (around : Surroundings) (method : String) (params : Option Json) :
    Option Reply × Server :=
  match method with
  | "exit" => (none, s.finish)
  | "$/cancelRequest" => (some (.error .invalidRequest), s)
  | "initialize" => (s.introduce params).map some id
  | "shutdown" => (s.shutdown params).map some id
  | _ =>
    if hasMethod method then
      match s.refusal? with
      | some r => (some (.error r), s)
      | none => (s.answer around method params).map some id
    else if method.startsWith "$/" then (none, s)
    else (some (.error .methodNotFound), s)

/-- A request of the client: the answer, if there is one. -/
def request (s : Server) (around : Surroundings) (method : String) (params : Option Json) :
    Option Reply × Server :=
  if s.isOver then (none, s) else s.respond around method params

/-! ### Notices -/

/-- The client is ready too. -/
def initialized (s : Server) : Server :=
  let s := if s.flags.configuration then s.send .registerForConfiguration else s
  s.send (.log "XElement Language Server initialized")

/-- A document was opened. -/
def didOpen (s : Server) (p : Params.Opened) : Server :=
  { s with session := s.session.openDocument p.uri p.version p.text }.scheduleUpdate p.uri

/-- A document was changed. -/
def didChange (s : Server) (p : Params.Changed) : Server :=
  let (known, session) := s.session.change p.uri p.version p.edits
  let s := { s with session }
  if known then s.scheduleUpdate p.uri else s

/-- A document was closed. -/
def didClose (s : Server) (uri : Uri) : Server :=
  { s with session := s.session.close uri }

/-- The settings were changed. A client that can be asked will be asked again;
all that was known of documents is dropped with the settings. -/
def didChangeConfiguration (s : Server) (change : Json) : Server :=
  let s := if s.flags.configuration
    then { s with session := s.session.withStore s.session.store.clear }
    else { s with settings := Settings.ofChange change }
  s.session.openUris.foldl scheduleUpdate s

/-- Another document became the active one. -/
def activeDocumentChanged (s : Server) (uri : Uri) : Server :=
  if s.session.isOpen uri then s.scheduleUpdate uri else s

/-- Acts on a notice if its parameters can be read. -/
def acting {α : Type} (s : Server) (params : Option Json) (read : Json → Option α)
    (act : α → Server) : Server :=
  match params.bind read with
  | none => s
  | some a => act a

/-- A notice of a client that has introduced itself. -/
def take (s : Server) (method : String) (params : Option Json) : Server :=
  match method with
  | "initialized" => s.acting params Params.ready? fun _ => s.initialized
  | "textDocument/didOpen" => s.acting params Params.opened? s.didOpen
  | "textDocument/didChange" => s.acting params Params.changed? s.didChange
  | "textDocument/didClose" => s.acting params Params.document? s.didClose
  | "workspace/didChangeConfiguration" =>
    s.acting params Params.settings? s.didChangeConfiguration
  | "custom/activeDocumentChanged" => s.acting params Params.named? s.activeDocumentChanged
  | "shutdown" => { s with lifecycle := .shutDown }
  | _ => s

/-- A notice of the client. -/
def notice (s : Server) (method : String) (params : Option Json) : Server :=
  if method = "exit" then s.finish
  else match s.lifecycle with
    | .ready => s.take method params
    | .beginning | .shutDown | .over => s

end Server

end ElementLens
