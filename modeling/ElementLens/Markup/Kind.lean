/-
Kinds of nodes in markup.

Leaves hold text; the other kinds group leaves. Three kinds stand for faults: an
`error` holds text that fits nowhere; a `missing` leaf and a `missingMark` are
empty and stand where there should have been something that says something by
itself, or only punctuation.
-/

namespace ElementLens.Markup

/-- Kinds of nodes. A stray end tag is one that ends no open element. -/
inductive Kind where
  | whole | fragment | element | startTag | selfClosingTag | endTag | strayEndTag | attribute
  | quotedValue
  | tagName | strayName | attributeName | attributeValue
  | comment | doctype | text | entity | rawText
  | blank | punctuation
  | error | missing | missingMark
deriving DecidableEq, Repr, Inhabited

namespace Kind

/-- Blanks and punctuation say nothing by themselves, whether they are there or
missing; all other kinds do. -/
def isNamed : Kind → Bool
  | .blank | .punctuation | .missingMark => false
  | _ => true

/-- The kinds that stand for faults. -/
def isFault : Kind → Bool
  | .error | .missing | .missingMark => true
  | _ => false

end Kind

end ElementLens.Markup
