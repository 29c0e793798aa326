/-
Records as JSON.

What is known of a module can be kept as JSON and read again. Every part is a
record with the members named here; paths and URIs are written as text, and
elements as an object with a member for each tag name.

* **`Record.toJson`** — writes what is known of a module;
* **`Record.ofJson?`** — reads it.
-/
import ElementLens.Component.Record
import ElementLens.Json
import ElementLens.Uri.Parse

namespace ElementLens

/-- The names of the four numbers of a span. -/
def Span.memberNames : List String := ["start_line", "start_col", "end_line", "end_col"]

/-- A span as its four numbers. -/
def Span.toNumbers (s : Span) : Json :=
  .object (memberNames.zip ([s.start.line, s.start.character, s.stop.line, s.stop.character].map
    fun (n : Nat) => .int n))

/-- Reads a span given as four numbers. -/
def Span.ofNumbers? (j : Json) : Option Span := do
  let r ← j.record? memberNames
  some ⟨⟨← r.member? Json.word? "start_line", ← r.member? Json.word? "start_col"⟩,
    ⟨← r.member? Json.word? "end_line", ← r.member? Json.word? "end_col"⟩⟩

/-- Reads a URI. -/
def Uri.ofJson? (j : Json) : Option Uri :=
  j.string?.bind Uri.parse?

/-- Reads a path. -/
def Path.ofJson? (j : Json) : Option Path :=
  j.string?.map Path.ofText

/-- A property. -/
def Property.toJson (p : Property) : Json :=
  .object [("key", .string p.key), ("span", p.span.toNumbers),
    ("type_name", (p.typeName.map Json.string).getD .null),
    ("internal", .bool p.internal), ("read_only", .bool p.readOnly)]

/-- Reads a property. -/
def Property.ofJson? (j : Json) : Option Property := do
  let r ← j.record? ["key", "span", "type_name", "internal", "read_only"]
  some ⟨← r.member? Json.string? "key", ← r.member? Span.ofNumbers? "span",
    ← r.optional? Json.string? "type_name", ← r.member? Json.bool? "internal",
    ← r.member? Json.bool? "read_only"⟩

/-- An element. -/
def Element.toJson (e : Element) : Json :=
  .object [("constructor_name", .string e.constructorName), ("name_span", e.nameSpan.toNumbers),
    ("properties", .array (e.properties.map Property.toJson))]

/-- Reads an element. -/
def Element.ofJson? (j : Json) : Option Element := do
  let r ← j.record? ["constructor_name", "name_span", "properties"]
  some ⟨← r.member? Json.string? "constructor_name", ← r.member? Span.ofNumbers? "name_span",
    ← r.member? (Json.list? Property.ofJson?) "properties"⟩

/-- The word for a kind of tag name. -/
def TokenKind.word : TokenKind → String
  | .startTagName => "StartTagName"
  | .endTagName => "EndTagName"

/-- Reads a kind of tag name. -/
def TokenKind.ofJson? (j : Json) : Option TokenKind :=
  (j.name? [TokenKind.startTagName.word, TokenKind.endTagName.word]).map fun word =>
    if word = TokenKind.startTagName.word then .startTagName else .endTagName

/-- A tag name of a template. -/
def Token.toJson (t : Token) : Json :=
  .object [("kind", .string t.kind.word), ("span", t.span.toNumbers), ("tag_name", .string t.tagName)]

/-- Reads a tag name of a template. -/
def Token.ofJson? (j : Json) : Option Token := do
  let r ← j.record? ["kind", "span", "tag_name"]
  some ⟨← r.member? TokenKind.ofJson? "kind", ← r.member? Span.ofNumbers? "span",
    ← r.member? Json.string? "tag_name"⟩

/-- A template. -/
def TemplateBlock.toJson (t : TemplateBlock) : Json :=
  .object [("span", t.span.toNumbers), ("tokens", .array (t.tokens.map Token.toJson))]

/-- Reads a template. -/
def TemplateBlock.ofJson? (j : Json) : Option TemplateBlock := do
  let r ← j.record? ["span", "tokens"]
  some ⟨← r.member? Span.ofNumbers? "span", ← r.member? (Json.list? Token.ofJson?) "tokens"⟩

/-- An import. -/
def ImportEdge.toJson (i : ImportEdge) : Json :=
  .object [("uri", .string i.uri.render), ("file_path", .string i.filePath.text)]

/-- Reads an import. -/
def ImportEdge.ofJson? (j : Json) : Option ImportEdge := do
  let r ← j.record? ["uri", "file_path"]
  some ⟨← r.member? Uri.ofJson? "uri", ← r.member? Path.ofJson? "file_path"⟩

/-- What is known of a module. -/
def Record.toJson (r : Record) : Json :=
  .object [("file_path", .string r.filePath.text),
    ("imports", .array (r.imports.map ImportEdge.toJson)),
    ("elements", .object (r.elements.map fun (tagName, e) => (tagName, e.toJson))),
    ("templates", .array (r.templates.map TemplateBlock.toJson))]

/-- Reads what is known of a module. -/
def Record.ofJson? (j : Json) : Option Record := do
  let r ← j.record? ["file_path", "imports", "elements", "templates"]
  let elements ← (← r.member? Json.object? "elements").mapM fun (tagName, e) => do
    some (tagName, ← Element.ofJson? e)
  some ⟨← r.member? Path.ofJson? "file_path", ← r.member? (Json.list? ImportEdge.ofJson?) "imports",
    elements, ← r.member? (Json.list? TemplateBlock.ofJson?) "templates"⟩

end ElementLens
