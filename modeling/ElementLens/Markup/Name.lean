/-
Names of elements.

Names are compared in lower case. Some names are known, and a few of the known
ones have rules of their own: void elements have no content, and some elements
end when an element begins that they cannot contain. All names that are not
known count as names of one sort, that of custom elements.

* **`canContain`** — which elements can stand in which.
-/

namespace ElementLens.Markup

/-- Characters of tag names. -/
def isNameChar (c : Char) : Bool :=
  c.isAlphanum || c == '-' || c == ':'

/-- The form in which names are compared. -/
def foldName (cs : List Char) : String :=
  String.ofList (cs.map Char.toLower)

/-- Elements without content. -/
def voidNames : List String :=
  ["area", "base", "basefont", "bgsound", "br", "col", "command", "embed", "frame", "hr",
    "image", "img", "input", "isindex", "keygen", "link", "menuitem", "meta", "nextid",
    "param", "source", "track", "wbr"]

/-- The other known elements. -/
def containerNames : List String :=
  ["a", "abbr", "address", "article", "aside", "audio", "b", "bdi", "bdo", "blockquote",
    "body", "button", "canvas", "caption", "cite", "code", "colgroup", "data", "datalist",
    "dd", "del", "details", "dfn", "dialog", "div", "dl", "dt", "em", "fieldset",
    "figcaption", "figure", "footer", "form", "h1", "h2", "h3", "h4", "h5", "h6", "head",
    "header", "hgroup", "html", "i", "iframe", "ins", "kbd", "label", "legend", "li",
    "main", "map", "mark", "math", "menu", "meter", "nav", "noscript", "object", "ol",
    "optgroup", "option", "output", "p", "picture", "pre", "progress", "q", "rb", "rp",
    "rt", "rtc", "ruby", "s", "samp", "script", "section", "select", "slot", "small",
    "span", "strong", "style", "sub", "summary", "sup", "svg", "table", "tbody", "td",
    "template", "textarea", "tfoot", "th", "thead", "time", "title", "tr", "u", "ul",
    "var", "video"]

/-- Whether an element has no content. -/
def isVoid (name : String) : Bool :=
  voidNames.contains name

/-- Whether a name is known. -/
def isKnown (name : String) : Bool :=
  voidNames.contains name || containerNames.contains name

/-- Elements that end a paragraph. -/
def paragraphBreakers : List String :=
  ["address", "article", "aside", "blockquote", "details", "div", "dl", "fieldset",
    "figcaption", "figure", "footer", "form", "h1", "h2", "h3", "h4", "h5", "h6", "header",
    "hr", "main", "nav", "ol", "p", "pre", "section"]

/-- Whether an element can have an element of the given name inside it. -/
def canContain (parent child : String) : Bool :=
  match parent with
  | "li" => child != "li"
  | "dt" | "dd" => child != "dt" && child != "dd"
  | "p" => !paragraphBreakers.contains child
  | "colgroup" => child == "col"
  | "rb" | "rt" | "rp" => child != "rb" && child != "rt" && child != "rp"
  | "optgroup" => child != "optgroup"
  | "tr" => child != "tr"
  | "td" | "th" => child != "td" && child != "th" && child != "tr"
  | _ => true

/-- Elements that need no end tag at the end of the text, their content may be
what it may. -/
def isOutermost (name : String) : Bool :=
  ["html", "head", "body"].contains name

end ElementLens.Markup
