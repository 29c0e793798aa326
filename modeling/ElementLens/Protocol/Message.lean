/-
Messages to the client, and answers.

What the server sends by itself, the errors it answers with, and what it says
of itself when a client introduces itself.
-/
import ElementLens.Protocol.Capabilities
import ElementLens.Protocol.Encode
import ElementLens.Settings

namespace ElementLens

/-- A request or a notice to the client. -/
inductive Message where
  | registerForConfiguration
  | log (text : String)
  | askConfiguration (uri : Uri)
  | publish (uri : Uri) (diagnostics : List Diagnostic)
deriving DecidableEq, Repr

namespace Message

/-- The method of a message. -/
def method : Message → String
  | .registerForConfiguration => "client/registerCapability"
  | .log _ => "window/logMessage"
  | .askConfiguration _ => "workspace/configuration"
  | .publish _ _ => "textDocument/publishDiagnostics"

/-- The parameters of a message. -/
def params : Message → Json
  | .registerForConfiguration =>
    .object [("registrations", .array [.object [
      ("id", .string "x-element-lsp/didChangeConfiguration"),
      ("method", .string "workspace/didChangeConfiguration")]])]
  | .log text => .object [("type", .nat 3), ("message", .string text)]
  | .askConfiguration uri =>
    .object [("items", .array [.object [
      ("scopeUri", uri.toJson), ("section", .string Settings.sectionName)]])]
  | .publish uri diagnostics =>
    .object [("uri", uri.toJson), ("diagnostics", .array (diagnostics.map Diagnostic.toJson))]

end Message

/-- Why a request is refused. -/
inductive Refusal where
  | notInitialized | invalidRequest | methodNotFound | invalidParams
deriving DecidableEq, Repr

/-- The codes of refusals. -/
def Refusal.code : Refusal → Int
  | .notInitialized => -32002
  | .invalidRequest => -32600
  | .methodNotFound => -32601
  | .invalidParams => -32602

/-- What the server says of itself. Workspace folders are only spoken of to a
client that has them. -/
def introduction (flags : ClientFlags) : Json :=
  let workspace : List (String × Json) :=
    if flags.workspaceFolders then
      [("workspace", .object [("workspaceFolders", .object [("supported", .bool true)])])]
    else []
  .object [
    ("capabilities", .object ([
      ("textDocumentSync", .nat 2),
      ("hoverProvider", .bool true),
      ("definitionProvider", .bool true),
      ("diagnosticProvider", .object [
        ("interFileDependencies", .bool false), ("workspaceDiagnostics", .bool false)])]
      ++ workspace)),
    ("serverInfo", .object [
      ("name", .string "x-element-lsp"), ("version", .string "0.1.0")])]

end ElementLens
