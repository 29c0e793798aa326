/-
Extraction: from a document to the record of its module.

The syntax tree of the document is visited in preorder. Markup templates give
a block with their custom tag names, declarations of registered classes give
elements, import statements give edges. Custom tag names are those with a
hyphen. A document must have a file path and be a script.

* **`extract`** — the record of a document, and what is worth a notice.
-/
import ElementLens.Component.Definition
import ElementLens.Component.Import
import ElementLens.Component.Registration
import ElementLens.Markup.Tokenizer
import ElementLens.Syntax.Cursor
import ElementLens.Template.Literal

namespace ElementLens

open Syntax (Node)

/-- Why a document has no record. -/
inductive AnalysisError where
  | oversized (length limit : Nat)
  | unavailable (reason : Markup.TokenizerError)
  | notAFile (uri : Uri)
  | notAScript (uri : Uri)
  | brokeDown
deriving DecidableEq, Repr

/-- The wording of the reasons. -/
def AnalysisError.message : AnalysisError → String
  | .oversized length limit => s!"document is {length} characters long, limit is {limit}"
  | .unavailable reason => "markup tokenizer unavailable: " ++ reason.message
  | .notAFile uri => "not a file uri: " ++ uri.render
  | .notAScript uri => "syntax error in " ++ uri.render
  | .brokeDown => "analysis worker failed"

/-- A tokenizer stopped early: where, after how many custom tag names, and
why. -/
structure EarlyStop where
  uri : Uri
  kept : Nat
  reason : Markup.TokenizerError
deriving DecidableEq, Repr

/-- A record in the making: what was found so far, the last thing first, and
the early stops. -/
structure Extraction where
  imports : List ImportEdge
  elements : Elements
  templates : List TemplateBlock
  stops : List EarlyStop

namespace Extraction

/-- Nothing found so far. -/
def empty : Extraction := ⟨[], [], [], []⟩

/-- The record of what was found in a file. -/
def record (x : Extraction) (filePath : Path) : Record :=
  ⟨filePath, x.imports.reverse, x.elements, x.templates.reverse⟩

/-- The kind of a custom tag name; attribute names are none. -/
def tokenKind? : Markup.EventKind → Option TokenKind
  | .startTagName => some .startTagName
  | .endTagName => some .endTagName
  | .attributeName => none

/-- The token of a reported name: tag names with a hyphen in one of the
segments. -/
def token? (d : Document) (segments : List Template.Segment) (e : Markup.Event) :
    Option Token := do
  let kind ← tokenKind? e.kind
  let segment ← segments[e.segment]?
  if e.text.toList.contains '-' then
    some ⟨kind, d.spanOf (segment.start + e.start) (segment.start + e.stop), e.text⟩
  else none

/-- Adds a template. -/
def addTemplate (d : Document) (tokenizer : Markup.Tokenizer) (x : Extraction)
    (t : Template.Literal) : Except AnalysisError Extraction :=
  match tokenizer (t.segments.map (·.raw)) with
  | .brokeDown => .error .brokeDown
  | .reported events stopped =>
    let tokens := events.filterMap (token? d t.segments)
    let block : TemplateBlock := ⟨d.spanOf t.start t.stop, tokens⟩
    .ok { x with
      templates := block :: x.templates
      stops := match stopped with
        | none => x.stops
        | some reason => ⟨d.uri, tokens.length, reason⟩ :: x.stops }

/-- Adds the element of a class declaration, if the class is registered. -/
def addClass (d : Document) (registrations : List Registration) (x : Extraction)
    (n : ScriptNode) : Extraction :=
  match n.child? (.terminal .name) with
  | none => x
  | some name =>
    match Registration.tagOf? registrations name.text with
    | none => x
    | some tagName =>
      { x with elements := x.elements.insert tagName (Element.ofClass d n name) }

/-- Adds the edge of an import statement, if it is followed. -/
def addImport (filePath : Path) (x : Extraction) (n : ScriptNode) : Extraction :=
  match ImportEdge.ofStatement? filePath n with
  | none => x
  | some edge => { x with imports := edge :: x.imports }

/-- Visits one node. -/
def visit (d : Document) (filePath : Path) (tokenizer : Markup.Tokenizer)
    (registrations : List Registration) (x : Extraction) (n : ScriptNode) :
    Except AnalysisError Extraction :=
  match n.kind with
  | .construct .call =>
    match Template.ofCall? n with
    | none => .ok x
    | some t => x.addTemplate d tokenizer t
  | .construct .classDeclaration => .ok (x.addClass d registrations n)
  | .construct .importStatement => .ok (x.addImport filePath n)
  | _ => .ok x

end Extraction

/-- The markup templates of a document in the order in which they are
visited, or the reason why there are none. -/
def templatesOf (d : Document) : Except AnalysisError (List Template.Literal) :=
  match d.uri.toPath? with
  | none => .error (.notAFile d.uri)
  | some _ =>
    match Script.parse? d.text.toList with
    | none => .error (.notAScript d.uri)
    | some tree =>
      .ok (Node.foldPreorder (fun found n =>
        if n.kind == .construct .call then (Template.ofCall? n).toList ++ found else found)
        [] ⟨0, tree⟩).reverse

/-- The record of a document or the reason why it has none, and the early
stops in order, if scripts are read with the given parser. -/
def extractBy (parse? : List Char → Option (Syntax.Tree Script.Kind)) (d : Document)
    (tokenizer : Markup.Tokenizer) : Except AnalysisError Record × List EarlyStop :=
  match d.uri.toPath? with
  | none => (.error (.notAFile d.uri), [])
  | some filePath =>
    match parse? d.text.toList with
    | none => (.error (.notAScript d.uri), [])
    | some tree =>
      let registrations := Registration.scan d.text
      let (x, failure) := Node.walk (Extraction.visit d filePath tokenizer registrations)
        Extraction.empty ⟨0, tree⟩
      let result := match failure with
        | none => .ok (x.record filePath)
        | some e => .error e
      (result, x.stops.reverse)

/-- The record of a document or the reason why it has none, and the early
stops in order. -/
def extract (d : Document) (tokenizer : Markup.Tokenizer) :
    Except AnalysisError Record × List EarlyStop :=
  extractBy Script.parse? d tokenizer

end ElementLens
