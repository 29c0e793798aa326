/-
Open documents.

A session holds the documents that are open in an editor. Closing a document
forgets its settings; its record stays. Only open documents are refreshed,
and only in them are definitions looked up.
-/
import ElementLens.Navigation.Hover
import ElementLens.Workbench

namespace ElementLens

/-- Documents that are open, under their URIs, and the workbench. No URI
occurs twice. -/
structure Session where
  documents : List Document
  bench : Workbench

namespace Session

/-- A session without documents. -/
def empty (capacity : Nat) : Session := ⟨[], Workbench.empty capacity⟩

/-- The store of a session. -/
def store (s : Session) : Store := s.bench.store

/-- Puts a store in place of the one of the session. -/
def withStore (s : Session) (store : Store) : Session :=
  { s with bench := { s.bench with store } }

/-- The open document with a URI. -/
def document? (s : Session) (uri : Uri) : Option Document :=
  s.documents.find? fun d => d.uri = uri

/-- Whether a document is open. -/
def isOpen (s : Session) (uri : Uri) : Bool :=
  (s.document? uri).isSome

/-- The URIs of the open documents. -/
def openUris (s : Session) : List Uri :=
  s.documents.map Document.uri

/-- Opens a document, or gives an open one a new text. -/
def openDocument (s : Session) (uri : Uri) (version : Int) (text : String) : Session :=
  let others := s.documents.filter fun d => d.uri ≠ uri
  { s with documents := others ++ [Document.ofText uri version text] }

/-- Edits a document, if it is open. -/
def change (s : Session) (uri : Uri) (version : Int) (edits : List TextEdit) : Bool × Session :=
  let documents := s.documents.map fun d => if d.uri = uri then d.apply edits version else d
  (s.isOpen uri, { s with documents })

/-- Closes a document. -/
def close (s : Session) (uri : Uri) : Session :=
  let documents := s.documents.filter fun d => d.uri ≠ uri
  { s with documents }.withStore (s.store.clearSettings uri)

/-- The problems of a document, as far as its record shows them. -/
def diagnostics (s : Session) (uri : Uri) (settings : Settings) : List Diagnostic × Session :=
  let (found, bench) := s.bench.diagnose uri settings
  (found, { s with bench })

/-- Analyses an open document with its imports, and gives its problems. -/
def refresh (s : Session) (loader : Loader) (files : FileSystem) (uri : Uri)
    (settings : Settings) : Option (List Diagnostic) × Session :=
  match s.document? uri with
  | none => (none, s)
  | some d =>
    let (_, bench) := s.bench.analyze loader files d true
    let (found, s) := { s with bench }.diagnostics uri settings
    (some found, s)

/-- The definition of the tag name at a position of an open document, unless
the question was cancelled. -/
def resolveAt (s : Session) (uri : Uri) (p : Position) (cancelled : Bool) :
    Option (Token × DefinitionLink × Element) × Session :=
  if cancelled || !s.isOpen uri then (none, s)
  else
    let (found, store) := s.store.resolveAt uri p
    (found, s.withStore store)

/-- The link to the definition of the tag name at a position. -/
def definition (s : Session) (uri : Uri) (p : Position) (cancelled : Bool) :
    Option DefinitionLink × Session :=
  let (found, s) := s.resolveAt uri p cancelled
  (found.map fun (_, link, _) => link, s)

/-- What is shown for the tag name at a position. -/
def hover (s : Session) (uri : Uri) (p : Position) (cancelled : Bool) :
    Option Hover × Session :=
  let (found, s) := s.resolveAt uri p cancelled
  (found.map fun (token, link, element) =>
    ⟨element.markdown token.tagName link, link.origin⟩, s)

end Session

end ElementLens
