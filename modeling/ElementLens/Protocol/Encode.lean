/-
Values as an editor expects them.

The JSON forms of positions, ranges, links, problems and hovers. Members that
are not set are left out.
-/
import ElementLens.Diagnostic
import ElementLens.Json
import ElementLens.Navigation.Hover

namespace ElementLens

/-- A natural number. -/
def Json.nat (n : Nat) : Json := .int n

/-- A position: a line and a character. -/
def Position.toJson (p : Position) : Json :=
  .object [("line", .nat p.line), ("character", .nat p.character)]

/-- A range: its start and its end. -/
def Span.toJson (s : Span) : Json :=
  .object [("start", s.start.toJson), ("end", s.stop.toJson)]

/-- A URI is written as its text. -/
def Uri.toJson (u : Uri) : Json := .string u.render

/-- A problem. -/
def Diagnostic.toJson (d : Diagnostic) : Json :=
  .object [("range", d.range.toJson), ("severity", .nat Diagnostic.severity),
    ("source", .string Diagnostic.source), ("message", .string d.message)]

/-- All problems of a document. -/
def Diagnostic.report (items : List Diagnostic) : Json :=
  .object [("kind", .string "full"), ("items", .array (items.map Diagnostic.toJson))]

/-- A link: the name of the class is both the whole target and the part of it
to select. -/
def DefinitionLink.toJson (l : DefinitionLink) : Json :=
  .object [("originSelectionRange", l.origin.toJson), ("targetUri", l.targetUri.toJson),
    ("targetRange", l.target.toJson), ("targetSelectionRange", l.target.toJson)]

/-- A hover. -/
def Hover.toJson (h : Hover) : Json :=
  .object [
    ("contents", .object [("kind", .string "markdown"), ("value", .string h.markdown)]),
    ("range", h.range.toJson)]

/-- A value that may not be there. -/
def Json.ofOption (value : Option Json) : Json := value.getD .null

end ElementLens
