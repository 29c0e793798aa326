/-
Requests that are not offered.

The protocol has many more requests than this server answers. They are still
read: one with parameters of the wrong form is refused for that, and any other
for not being offered.

* **`unoffered`** — these requests, with the forms of their parameters;
* **`noticeNames`** — the notices of the protocol.
-/
import ElementLens.Protocol.Params

namespace ElementLens

namespace Unoffered

open Form Member Params

/-! ### Parts of parameters -/

/-- A place in a document. -/
def place : List Member := [needed "textDocument" document, needed "position" position]

/-- A document. -/
def ofDocument : Member := needed "textDocument" document

/-- A range in a document. -/
def ofRange : Member := needed "range" range

/-- Text that says whether it has markup, or plain text. -/
def documentation : Form :=
  either text (record [needed "kind" (oneOf ["plaintext", "markdown"]), needed "value" text])

/-- A place in any document. -/
def location : Form := record [needed "uri" uri, ofRange]

/-- A command of the client. -/
def command : Form := record [needed "title" text, needed "command" text,
  maybe "arguments" (list anything)]

/-- A replacement of a range. -/
def textEdit : Form := record [ofRange, needed "newText" text]

/-- A problem. -/
def diagnostic : Form := record [
  ofRange,
  maybe "severity" signedWord,
  maybe "code" token,
  maybe "codeDescription" (record [needed "href" uri]),
  maybe "source" text,
  needed "message" text,
  maybe "relatedInformation" (list (record [needed "location" location, needed "message" text])),
  maybe "tags" (list signedWord),
  maybe "data" anything]

/-- The options of formatting that the protocol knows. -/
def knownOptions : List Member :=
  [needed "tabSize" word, needed "insertSpaces" flag]
    ++ maybes ["trimTrailingWhitespace", "insertFinalNewline", "trimFinalNewlines"] flag

/-- How to format. Further options are flags, numbers or texts. -/
def formattingOptions : Form := fun j =>
  members knownOptions j && (j.object?.getD []).all fun (name, value) =>
    (knownOptions.map Member.name).contains name || either flag token value

/-- Two numbers. -/
def pair : Form
  | .array [a, b] => word a && word b
  | _ => false

/-- Help on a call that is already shown. -/
def signatureContext : Form := record [
  needed "triggerKind" signedWord,
  maybe "triggerCharacter" text,
  needed "isRetrigger" flag,
  maybe "activeSignatureHelp" (record [
    needed "signatures" (list (record [
      needed "label" text,
      maybe "documentation" documentation,
      maybe "parameters" (list (record [
        needed "label" (either text pair),
        maybe "documentation" documentation])),
      maybe "activeParameter" word])),
    maybe "activeSignature" word,
    maybe "activeParameter" word])]

/-- A member of a hierarchy of calls or types. -/
def hierarchyItem (tags : Form) : Form := record [
  needed "name" text,
  needed "kind" signedWord,
  maybe "tags" tags,
  maybe "detail" text,
  needed "uri" uri,
  needed "range" range,
  needed "selectionRange" range,
  maybe "data" anything]

/-- A question about a member of a hierarchy. -/
def hierarchy (tags : Form) : Form :=
  members [needed "item" (hierarchyItem tags), workDone, partialResult]

/-! ### Edits of many files -/

/-- Edits of one document. -/
def documentEdit : Form := record [
  needed "textDocument" (record [needed "uri" uri, maybe "version" signedWord]),
  needed "edits" (list textEdit)]

/-- A file that is to be made, renamed or removed. -/
def fileEdit : Form := fun j =>
  match (j.get? "kind").bind Json.string? with
  | some "create" => members [needed "uri" uri,
      maybe "options" (flags ["overwrite", "ignoreIfExists"]), maybe "annotationId" text] j
  | some "rename" => members [needed "oldUri" uri, needed "newUri" uri,
      maybe "options" (flags ["overwrite", "ignoreIfExists"]), maybe "annotationId" text] j
  | some "delete" => members [needed "uri" uri,
      maybe "options" (record [maybe "recursive" flag, maybe "ignoreIfNotExists" flag,
        maybe "annotationId" text])] j
  | _ => false

/-- Edits of many files. -/
def workspaceEdit : Form := record [
  ⟨"changes", .defaulted, orNull (table (fun name => (Uri.parse? name).isSome) (list textEdit))⟩,
  maybe "documentChanges" (list (either documentEdit fileEdit)),
  maybe "changeAnnotations" (table (fun _ => true) (record [
    needed "label" text, maybe "needsConfirmation" flag, maybe "description" text]))]

/-! ### Things that are completed later -/

/-- A completion. -/
def completionItem : Form := record [
  needed "label" text,
  maybe "labelDetails" (record [maybe "detail" text, maybe "description" text]),
  maybe "kind" signedWord,
  maybe "detail" text,
  maybe "documentation" documentation,
  maybe "deprecated" flag,
  maybe "preselect" flag,
  maybe "sortText" text,
  maybe "filterText" text,
  maybe "insertText" text,
  maybe "insertTextFormat" signedWord,
  maybe "insertTextMode" signedWord,
  maybe "textEdit" (either textEdit (record [needed "newText" text, needed "insert" range,
    needed "replace" range])),
  maybe "additionalTextEdits" (list textEdit),
  maybe "command" command,
  maybe "commitCharacters" names,
  maybe "data" anything,
  maybe "tags" (list signedWord)]

/-- An action on code. -/
def codeAction : Form := record [
  needed "title" text,
  maybe "kind" text,
  maybe "diagnostics" (list diagnostic),
  maybe "edit" workspaceEdit,
  maybe "command" command,
  maybe "isPreferred" flag,
  maybe "disabled" (record [needed "reason" text]),
  maybe "data" anything]

/-- A hint between the characters of a line. -/
def inlayHint : Form := record [
  needed "position" position,
  needed "label" (either text (list (record [
    needed "value" text,
    maybe "tooltip" documentation,
    maybe "location" location,
    maybe "command" command]))),
  maybe "kind" signedWord,
  maybe "textEdits" (list textEdit),
  maybe "tooltip" documentation,
  maybe "paddingLeft" flag,
  maybe "paddingRight" flag,
  maybe "data" anything]

/-- A name anywhere in a workspace. -/
def workspaceSymbol : Form := record [
  needed "name" text,
  needed "kind" signedWord,
  maybe "tags" (list signedWord),
  maybe "containerName" text,
  needed "location" (either location document),
  maybe "data" anything]

/-- Files that are to be made, renamed or removed, each with the given names. -/
def files (names : List String) : Form :=
  record [needed "files" (list (record (names.map fun name => needed name text)))]

/-! ### The requests -/

/-- Requests about a place in a document. -/
def ofPlaces : List (String × Form) := [
  ("completion", members (place ++ [workDone, partialResult,
    maybe "context" (record [needed "triggerKind" signedWord, maybe "triggerCharacter" text])])),
  ("declaration", members (place ++ [workDone, partialResult])),
  ("typeDefinition", members (place ++ [workDone, partialResult])),
  ("implementation", members (place ++ [workDone, partialResult])),
  ("references", members (place ++ [workDone, partialResult,
    needed "context" (record [needed "includeDeclaration" flag])])),
  ("documentHighlight", members (place ++ [workDone, partialResult])),
  ("signatureHelp", members (place ++ [workDone, maybe "context" signatureContext])),
  ("rename", members (place ++ [workDone, needed "newName" text])),
  ("prepareRename", record place),
  ("linkedEditingRange", members (place ++ [workDone])),
  ("moniker", members (place ++ [workDone, partialResult])),
  ("prepareCallHierarchy", members (place ++ [workDone])),
  ("prepareTypeHierarchy", members (place ++ [workDone])),
  ("onTypeFormatting", members (place ++ [needed "ch" text, needed "options" formattingOptions]))]

/-- Requests about a document. -/
def ofDocuments : List (String × Form) :=
  ["documentLink", "codeLens", "foldingRange", "documentSymbol", "semanticTokens/full",
    "documentColor"].map (·, members [ofDocument, workDone, partialResult])
  ++ [
  ("selectionRange", members [ofDocument, needed "positions" (list position), workDone,
    partialResult]),
  ("semanticTokens/full/delta", members [ofDocument, needed "previousResultId" text, workDone,
    partialResult]),
  ("semanticTokens/range", members [ofDocument, ofRange, workDone, partialResult]),
  ("inlineValue", members [ofDocument, ofRange, needed "context" (record [
    needed "frameId" signedWord, needed "stoppedLocation" range]), workDone]),
  ("inlayHint", members [ofDocument, ofRange, workDone]),
  ("codeAction", members [ofDocument, ofRange, needed "context" (record [
    needed "diagnostics" (list diagnostic), maybe "only" names,
    maybe "triggerKind" signedWord]), workDone, partialResult]),
  ("colorPresentation", members [ofDocument, needed "color" (record (
    ["red", "green", "blue", "alpha"].map fun name => needed name number)), ofRange, workDone,
    partialResult]),
  ("formatting", members [ofDocument, needed "options" formattingOptions, workDone]),
  ("rangeFormatting", members [ofDocument, ofRange, needed "options" formattingOptions,
    workDone]),
  ("willSaveWaitUntil", record [ofDocument, needed "reason" signedWord])]

/-- Requests about other things. -/
def ofOthers : List (String × Form) := [
  ("callHierarchy/incomingCalls", hierarchy (list signedWord)),
  ("callHierarchy/outgoingCalls", hierarchy (list signedWord)),
  ("typeHierarchy/supertypes", hierarchy signedWord),
  ("typeHierarchy/subtypes", hierarchy signedWord),
  ("documentLink/resolve", record [ofRange, maybe "target" uri, maybe "tooltip" text,
    maybe "data" anything]),
  ("codeLens/resolve", record [ofRange, maybe "command" command, maybe "data" anything]),
  ("inlayHint/resolve", inlayHint),
  ("completionItem/resolve", completionItem),
  ("codeAction/resolve", codeAction),
  ("workspace/diagnostic", members [maybe "identifier" text,
    needed "previousResultIds" (list (record [needed "uri" uri, needed "value" text])),
    workDone, partialResult]),
  ("workspace/symbol", members [needed "query" text, workDone, partialResult]),
  ("workspaceSymbol/resolve", workspaceSymbol),
  ("workspace/willCreateFiles", files ["uri"]),
  ("workspace/willRenameFiles", files ["oldUri", "newUri"]),
  ("workspace/willDeleteFiles", files ["uri"]),
  ("workspace/executeCommand", members [needed "command" text,
    ⟨"arguments", .defaulted, list anything⟩, workDone])]

end Unoffered

/-- Requests of the protocol that this server does not offer, with the forms
of their parameters. -/
def unoffered : List (String × Form) :=
  (Unoffered.ofPlaces ++ Unoffered.ofDocuments).map (fun (name, f) => ("textDocument/" ++ name, f))
    ++ Unoffered.ofOthers

/-- Notices of the protocol, whether the server acts on them or not. A request
by one of these names is not valid. -/
def noticeNames : List String :=
  ["initialized", "textDocument/didOpen", "textDocument/didChange", "textDocument/willSave",
    "textDocument/didSave", "textDocument/didClose", "workspace/didChangeConfiguration",
    "workspace/didChangeWorkspaceFolders", "workspace/didChangeWatchedFiles",
    "workspace/didCreateFiles", "workspace/didRenameFiles", "workspace/didDeleteFiles",
    "custom/activeDocumentChanged"]

end ElementLens
