/-
What is shown for an element.

A text in Markdown: the tag name with a link to its class, then a line for
each property that is not internal, with a link to where it is declared.
Lines and columns in links are counted from one.
-/
import ElementLens.Navigation.Link

namespace ElementLens

/-- What is shown for a tag name, and the place it belongs to. -/
structure Hover where
  markdown : String
  range : Span
deriving DecidableEq, Repr

/-- The link to a place in a file. -/
def fileLink (uri : Uri) (p : Position) : String :=
  s!"{uri.display}#L{p.line + 1},{p.character + 1}"

/-- The line of a property. -/
def Property.markdown (p : Property) (uri : Uri) : String :=
  s!"\n\n[{p.key}]({fileLink uri p.span.start})"
    ++ (if p.readOnly then " [read-only]" else "")
    ++ (match p.typeName with
      | some name => s!" ({name})"
      | none => "")

/-- The text for an element. -/
def Element.markdown (e : Element) (tagName : String) (link : DefinitionLink) : String :=
  s!"**The [{tagName}]({fileLink link.targetUri link.target.start}) element.**"
    ++ String.join ((e.properties.filter fun p => !p.internal).map fun p =>
      p.markdown link.targetUri)

end ElementLens
