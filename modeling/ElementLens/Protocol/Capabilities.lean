/-
What a client can do.

A client introduces itself with a description of everything it can do. Only
three flags of it matter here, but a description with a part of the wrong form
is refused as a whole.

* **`ClientFlags.ofCapabilities?`** — the flags in a description.
-/
import ElementLens.Protocol.Form

namespace ElementLens

namespace Capabilities

open Form Member

/-- Whether an ability can be registered later. -/
def dynamic : Form := flags ["dynamicRegistration"]

/-- Whether the server may ask for a refresh. -/
def refresh : Form := flags ["refreshSupport"]

/-- The tags that a client knows. Older clients give a truth value only. -/
def tagSupport : Member :=
  ⟨"tagSupport", .defaulted,
    either flag (orNull (record [needed "valueSet" (list signedWord)]))⟩

/-- The kinds that a client knows, as numbers. -/
def kindSet : Form := record [maybe "valueSet" (list signedWord)]

/-- The properties that a client can ask for later. -/
def resolveSupport : Member := maybe "resolveSupport" (record [needed "properties" names])

/-- The kinds of text that a client can show. -/
def markupKinds : Form := list (oneOf ["plaintext", "markdown"])

/-- Editing more than one file. -/
def workspaceEdit : Form := record [
  maybe "documentChanges" flag,
  maybe "resourceOperations" (list (oneOf ["create", "rename", "delete"])),
  maybe "failureHandling" (oneOf ["abort", "transactional", "textOnlyTransactional", "undo"]),
  maybe "normalizesLineEndings" flag,
  maybe "changeAnnotationSupport" (flags ["groupsOnLabel"])]

/-- What a client can do with a workspace. -/
def workspace : List Member := [
  maybe "applyEdit" flag,
  maybe "workspaceEdit" workspaceEdit,
  maybe "didChangeConfiguration" dynamic,
  maybe "didChangeWatchedFiles" (flags ["dynamicRegistration", "relativePatternSupport"]),
  maybe "symbol" (record [maybe "dynamicRegistration" flag, maybe "symbolKind" kindSet,
    tagSupport, resolveSupport]),
  maybe "executeCommand" dynamic,
  maybe "workspaceFolders" flag,
  maybe "configuration" flag,
  maybe "semanticTokens" refresh,
  maybe "codeLens" refresh,
  maybe "fileOperations" (flags ["dynamicRegistration", "didCreate", "willCreate", "didRename",
    "willRename", "didDelete", "willDelete"]),
  maybe "inlineValue" refresh,
  maybe "inlayHint" refresh,
  maybe "diagnostic" refresh]

/-- Completion. -/
def completion : Form := record [
  maybe "dynamicRegistration" flag,
  maybe "completionItem" (record [
    maybe "snippetSupport" flag,
    maybe "commitCharactersSupport" flag,
    maybe "documentationFormat" markupKinds,
    maybe "deprecatedSupport" flag,
    maybe "preselectSupport" flag,
    tagSupport,
    maybe "insertReplaceSupport" flag,
    resolveSupport,
    maybe "insertTextModeSupport" (record [needed "valueSet" (list signedWord)]),
    maybe "labelDetailsSupport" flag]),
  maybe "completionItemKind" kindSet,
  maybe "contextSupport" flag,
  maybe "insertTextMode" signedWord,
  maybe "completionList" (record [maybe "itemDefaults" names])]

/-- Help on the parameters of a call. -/
def signatureHelp : Form := record [
  maybe "dynamicRegistration" flag,
  maybe "signatureInformation" (record [
    maybe "documentationFormat" markupKinds,
    maybe "parameterInformation" (flags ["labelOffsetSupport"]),
    maybe "activeParameterSupport" flag]),
  maybe "contextSupport" flag]

/-- Jumping to another place. -/
def jump : Form := flags ["dynamicRegistration", "linkSupport"]

/-- Actions on code. -/
def codeAction : Form := record [
  maybe "dynamicRegistration" flag,
  maybe "codeActionLiteralSupport" (record [
    needed "codeActionKind" (record [needed "valueSet" names])]),
  maybe "isPreferredSupport" flag,
  maybe "disabledSupport" flag,
  maybe "dataSupport" flag,
  resolveSupport,
  maybe "honorsChangeAnnotations" flag]

/-- Colouring by meaning. -/
def semanticTokens : Form := record [
  maybe "dynamicRegistration" flag,
  needed "requests" (record [maybe "range" flag, maybe "full" (either flag (flags ["delta"]))]),
  needed "tokenTypes" names,
  needed "tokenModifiers" names,
  needed "formats" (list (oneOf ["relative"])),
  maybe "overlappingTokenSupport" flag,
  maybe "multilineTokenSupport" flag,
  maybe "serverCancelSupport" flag,
  maybe "augmentsSyntaxTokens" flag]

/-- Showing problems. -/
def publishDiagnostics : List Member := [
  maybe "relatedInformation" flag,
  tagSupport,
  maybe "versionSupport" flag,
  maybe "codeDescriptionSupport" flag,
  maybe "dataSupport" flag]

/-- What a client can do with a document. -/
def textDocument : List Member := [
  maybe "synchronization"
    (flags ["dynamicRegistration", "willSave", "willSaveWaitUntil", "didSave"]),
  maybe "completion" completion,
  maybe "hover" (record [maybe "dynamicRegistration" flag, maybe "contentFormat" markupKinds]),
  maybe "signatureHelp" signatureHelp,
  maybe "references" dynamic,
  maybe "documentHighlight" dynamic,
  maybe "documentSymbol" (record [maybe "dynamicRegistration" flag, maybe "symbolKind" kindSet,
    maybe "hierarchicalDocumentSymbolSupport" flag, tagSupport]),
  maybe "formatting" dynamic,
  maybe "rangeFormatting" dynamic,
  maybe "onTypeFormatting" dynamic,
  maybe "declaration" jump,
  maybe "definition" jump,
  maybe "typeDefinition" jump,
  maybe "implementation" jump,
  maybe "codeAction" codeAction,
  maybe "codeLens" dynamic,
  maybe "documentLink" (flags ["dynamicRegistration", "tooltipSupport"]),
  maybe "colorProvider" dynamic,
  maybe "rename" (record [maybe "dynamicRegistration" flag, maybe "prepareSupport" flag,
    maybe "prepareSupportDefaultBehavior" signedWord, maybe "honorsChangeAnnotations" flag]),
  maybe "publishDiagnostics" (record publishDiagnostics),
  maybe "foldingRange" (record [maybe "dynamicRegistration" flag, maybe "rangeLimit" word,
    maybe "lineFoldingOnly" flag,
    maybe "foldingRangeKind" (record [
      maybe "valueSet" (list (oneOf ["comment", "imports", "region"]))]),
    maybe "foldingRange" (flags ["collapsedText"])]),
  maybe "selectionRange" dynamic,
  maybe "linkedEditingRange" dynamic,
  maybe "callHierarchy" dynamic,
  maybe "semanticTokens" semanticTokens,
  maybe "moniker" dynamic,
  maybe "typeHierarchy" dynamic,
  maybe "inlineValue" dynamic,
  maybe "inlayHint" (record [maybe "dynamicRegistration" flag, resolveSupport]),
  maybe "diagnostic" (flags ["dynamicRegistration", "relatedDocumentSupport"])]

/-- What a client can show beside documents. -/
def window : Form := record [
  maybe "workDoneProgress" flag,
  maybe "showMessage" (record [
    maybe "messageActionItem" (flags ["additionalPropertiesSupport"])]),
  maybe "showDocument" (record [needed "support" flag])]

/-- General abilities. -/
def general : Form := record [
  maybe "regularExpressions" (record [needed "engine" text, maybe "version" text]),
  maybe "markdown" (record [needed "parser" text, maybe "version" text,
    maybe "allowedTags" names]),
  maybe "staleRequestSupport" (record [needed "cancel" flag,
    needed "retryOnContentModified" names]),
  maybe "positionEncodings" names]

/-- Everything that a client can do. -/
def all : List Member := [
  maybe "workspace" (record workspace),
  maybe "textDocument" (record textDocument),
  maybe "window" window,
  maybe "general" general,
  maybe "experimental" anything]

/-- The parts of a description by their names, whichever way it is written. -/
def parts (ms : List Member) : Option Json → Json
  | some (.array items) => .object ((ms.map Member.name).zip items)
  | some j => j
  | none => .null

end Capabilities

/-- What a client can do, as far as it matters. -/
structure ClientFlags where
  configuration : Bool
  workspaceFolders : Bool
  relatedInformation : Bool
deriving DecidableEq, Repr

namespace ClientFlags

/-- A client that can do nothing. -/
def none : ClientFlags := ⟨false, false, false⟩

/-- Whether a flag is set. -/
def isSet (name : String) (j : Json) : Bool :=
  ((j.get? name).bind Json.bool?).getD false

/-- Reads the description of a client. -/
def ofCapabilities? (j : Json) : Option ClientFlags :=
  if Form.record Capabilities.all j then
    let client := Capabilities.parts Capabilities.all (some j)
    let workspace := Capabilities.parts Capabilities.workspace (client.get? "workspace")
    let documents := Capabilities.parts Capabilities.textDocument (client.get? "textDocument")
    let problems :=
      Capabilities.parts Capabilities.publishDiagnostics (documents.get? "publishDiagnostics")
    some ⟨isSet "configuration" workspace, isSet "workspaceFolders" workspace,
      isSet "relatedInformation" problems⟩
  else .none

end ClientFlags

end ElementLens
