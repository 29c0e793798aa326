/-
The grammar of markup.

Markup is text, character references and elements. An element has a start tag
and an end tag with content between them, or is a tag that closes itself; its
end tag may be left out where the lexer says so. Scripts and style sheets
have raw text as content. An end tag that ends no open element is a construct
of its own.

The order of the terminals matters: where one has to be supplied they are
tried in this order.

* **`grammar`** — the rules;
* **`table`** — the table computed from them.
-/
import ElementLens.Grammar.Table
import ElementLens.Markup.Kind

namespace ElementLens.Markup

open Grammar (Rule)

/-- The terminals of markup. -/
inductive Terminal where
  | endOfText
  | declarationOpen | doctypeBody | tagClose | doctypeWord | tagOpen | selfClose | endTagOpen
  | equals | attributeName | bareValue | entity
  | apostrophe | apostropheValue | quote | quoteValue | text
  | startName | scriptName | styleName | endName | strayName | impliedEnd | rawText | comment
deriving DecidableEq, Repr

/-- The constructs of markup. `item` is anything that may stand in content. -/
inductive Construct where
  | fragment | doctype | item | element | scriptElement | styleElement
  | startTag | scriptStartTag | styleStartTag | selfClosingTag | endTag | strayEndTag
  | attribute | quotedValue
deriving DecidableEq, Repr

namespace Terminal

/-- All terminals, in the order in which they are tried. -/
def all : List Terminal :=
  [endOfText, declarationOpen, doctypeBody, tagClose, doctypeWord, tagOpen, selfClose, endTagOpen,
    equals, attributeName, bareValue, entity, apostrophe, apostropheValue, quote, quoteValue, text,
    startName, scriptName, styleName, endName, strayName, impliedEnd, rawText, comment]

/-- The number of a terminal. -/
def number (t : Terminal) : Nat := all.findIdx (· == t)

/-- The kind of the leaf of a terminal. -/
def kind : Terminal → Kind
  | endOfText | impliedEnd | declarationOpen | tagClose | tagOpen | selfClose | endTagOpen
  | equals | apostrophe | quote | doctypeBody | doctypeWord => .punctuation
  | attributeName => .attributeName
  | bareValue | apostropheValue | quoteValue => .attributeValue
  | entity => .entity
  | text => .text
  | startName | scriptName | styleName | endName => .tagName
  | strayName => .strayName
  | rawText => .rawText
  | comment => .comment

/-- Whether a terminal is counted as something found. -/
def isVisible : Terminal → Bool
  | endOfText | impliedEnd | doctypeBody => false
  | _ => true

end Terminal

/-- The kind of the branch of a construct; an `item` is what it consists of. -/
def Construct.kind? : Construct → Option Kind
  | .fragment => some .fragment
  | .doctype => some .doctype
  | .item => none
  | .element | .scriptElement | .styleElement => some .element
  | .startTag | .scriptStartTag | .styleStartTag => some .startTag
  | .selfClosingTag => some .selfClosingTag
  | .endTag => some .endTag
  | .strayEndTag => some .strayEndTag
  | .attribute => some .attribute
  | .quotedValue => some .quotedValue

/-- Rules of markup. -/
abbrev MarkupRule := Rule (Terminal ⊕ Construct) Kind

instance : Coe Terminal MarkupRule := ⟨fun t => .symbol (.inl t)⟩

instance : Coe Construct MarkupRule := ⟨fun c => .symbol (.inr c)⟩

open Grammar.Rule Terminal in
/-- The rules of all constructs. -/
def rules : List (Construct × MarkupRule) :=
  let attributes : MarkupRule := many Construct.attribute
  let content : MarkupRule := many Construct.item
  [ (.fragment, content),
    (.doctype, seqOf [declarationOpen, doctypeWord, doctypeBody, tagClose]),
    (.item, altOf [Construct.doctype, entity, text, Construct.element, Construct.scriptElement,
      Construct.styleElement, Construct.strayEndTag]),
    (.element, alt
      (seqOf [Construct.startTag, content, altOf [Construct.endTag, impliedEnd]])
      Construct.selfClosingTag),
    (.scriptElement, seqOf [Construct.scriptStartTag, opt rawText, Construct.endTag]),
    (.styleElement, seqOf [Construct.styleStartTag, opt rawText, Construct.endTag]),
    (.startTag, seqOf [tagOpen, startName, attributes, tagClose]),
    (.scriptStartTag, seqOf [tagOpen, scriptName, attributes, tagClose]),
    (.styleStartTag, seqOf [tagOpen, styleName, attributes, tagClose]),
    (.selfClosingTag, seqOf [tagOpen, startName, attributes, selfClose]),
    (.endTag, seqOf [endTagOpen, endName, tagClose]),
    (.strayEndTag, seqOf [endTagOpen, strayName, tagClose]),
    (.attribute, seqOf [attributeName,
      opt (seqOf [equals, altOf [bareValue, Construct.quotedValue]])]),
    (.quotedValue, alt
      (seqOf [apostrophe, opt apostropheValue, apostrophe])
      (seqOf [quote, opt quoteValue, quote])) ]

/-- The grammar of markup. -/
def grammar : Grammar.Ruleset Terminal Construct Kind where
  terminals := Terminal.all
  rules := rules
  transparent := fun c => c == .item
  order := []

/-- The table of the grammar. -/
def table : Grammar.Table Kind := Grammar.Table.ofRuleset grammar

end ElementLens.Markup
