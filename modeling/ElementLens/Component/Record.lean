/-
What is known of a module.

The record of a module lists the elements it defines, the modules it imports
by a relative path, and the custom tag names in its markup templates. Elements
are kept under their tag names; a later definition under the same name takes
the place of the earlier one.
-/
import ElementLens.Text.Position
import ElementLens.Uri.Basic

namespace ElementLens

/-- A property of an element: its name and where that stands, the name of its
type, whether it is internal, and whether it is read-only. -/
structure Property where
  key : String
  span : Span
  typeName : Option String
  internal : Bool
  readOnly : Bool
deriving DecidableEq, Repr

/-- An element: the class behind it, where the name of that class stands, and
its properties in the order of the source. -/
structure Element where
  constructorName : String
  nameSpan : Span
  properties : List Property
deriving DecidableEq, Repr

/-- An import of a module by a relative path. -/
structure ImportEdge where
  uri : Uri
  filePath : Path
deriving DecidableEq, Repr

/-- Whether a tag name stands in a start tag or in an end tag. -/
inductive TokenKind where
  | startTagName | endTagName
deriving DecidableEq, Repr

/-- A custom tag name in a template. -/
structure Token where
  kind : TokenKind
  span : Span
  tagName : String
deriving DecidableEq, Repr

/-- A template and the custom tag names in it. -/
structure TemplateBlock where
  span : Span
  tokens : List Token
deriving DecidableEq, Repr

/-- Elements by tag name. No name occurs twice. -/
abbrev Elements := List (String × Element)

namespace Elements

/-- The element with a tag name. -/
def get? (es : Elements) (tagName : String) : Option Element :=
  (es.find? fun e => e.1 == tagName).map Prod.snd

/-- Sets the element with a tag name. -/
def insert (es : Elements) (tagName : String) (element : Element) : Elements :=
  es.filter (fun e => e.1 != tagName) ++ [(tagName, element)]

end Elements

/-- What is known of a module. -/
structure Record where
  filePath : Path
  imports : List ImportEdge
  elements : Elements
  templates : List TemplateBlock
deriving DecidableEq, Repr

namespace Record

/-- The record of an empty module. -/
def empty (filePath : Path) : Record := ⟨filePath, [], [], []⟩

/-- The element with a tag name. -/
def element? (r : Record) (tagName : String) : Option Element :=
  r.elements.get? tagName

/-- The tag names of all templates, template by template. -/
def tokens (r : Record) : List Token :=
  r.templates.flatMap TemplateBlock.tokens

end Record

end ElementLens
