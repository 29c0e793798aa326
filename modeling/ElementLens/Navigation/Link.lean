/-
From a tag name to its definition.

A tag name is looked up in the record of its own document first, then in the
records of the imported modules, in the order of the imports. Records that
are not in the store are not made here.

* **`tokenAt?`** — the tag name at a position;
* **`Store.resolveIn`** — the definition of a tag name. Every look into the
  store uses the entry it looks at, so the store changes.
-/
import ElementLens.Store

namespace ElementLens

/-- A link from a tag name to the name of the class that defines it. -/
structure DefinitionLink where
  origin : Span
  targetUri : Uri
  target : Span
deriving DecidableEq, Repr

/-- The tag name at a position. All templates around the position are looked
at. -/
def tokenAt? (templates : List TemplateBlock) (p : Position) : Option Token :=
  ((templates.filter fun t => t.span.encloses p).flatMap TemplateBlock.tokens).find?
    fun t => t.span.encloses p

namespace Store

/-- The definition of a tag name in the first of some imported modules that
has one. -/
def resolveImported (s : Store) (token : Token) :
    List ImportEdge → Option (DefinitionLink × Element) × Store
  | [] => (none, s)
  | edge :: edges =>
    let (record, s) := s.analysis edge.uri
    match record.bind fun r => r.element? token.tagName with
    | some e => (some (⟨token.span, edge.uri, e.nameSpan⟩, e), s)
    | none => s.resolveImported token edges

/-- The definition of a tag name in a document with the given record. -/
def resolveIn (s : Store) (uri : Uri) (record : Record) (token : Token) :
    Option (DefinitionLink × Element) × Store :=
  match record.element? token.tagName with
  | some e => (some (⟨token.span, uri, e.nameSpan⟩, e), s)
  | none => s.resolveImported token record.imports

/-- The definition of a tag name in a document. -/
def resolve (s : Store) (uri : Uri) (token : Token) : Option DefinitionLink × Store :=
  let (record, s) := s.analysis uri
  match record with
  | none => (none, s)
  | some r =>
    let (found, s) := s.resolveIn uri r token
    (found.map Prod.fst, s)

/-- The definition of the tag name at a position of a document. -/
def resolveAt (s : Store) (uri : Uri) (p : Position) :
    Option (Token × DefinitionLink × Element) × Store :=
  let (record, s) := s.analysis uri
  match record with
  | none => (none, s)
  | some r =>
    match tokenAt? r.templates p with
    | none => (none, s)
    | some token =>
      let (found, s) := s.resolveIn uri r token
      (found.map (token, ·), s)

end Store

end ElementLens
