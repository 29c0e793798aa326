/-
Names found in markup.

A template is markup in segments. The segments are joined and parsed as one
text; the names of tags and attributes are reported in preorder, each with
its segment and its range there, up to the first fault. A name that does not
lie within one segment is not reported.

* **`eventsOf`** — the names in a tree and the fault that ended the walk;
* **`eventsBy`** — the same for the tree of the joined segments.
-/
import ElementLens.Markup.Parse
import ElementLens.Markup.Layout
import ElementLens.Syntax.Cursor

namespace ElementLens.Markup

open Syntax (Node)

/-- What a name names. -/
inductive EventKind where
  | startTagName | endTagName | attributeName
deriving DecidableEq, Repr

/-- A name: the segment that holds it, its range in that segment in bytes,
and its text. -/
structure Event where
  kind : EventKind
  segment : Nat
  start : Nat
  stop : Nat
  text : String
deriving DecidableEq, Repr

/-- A place that cannot be read as markup. -/
structure Fault where
  segment : Nat
  offset : Nat
deriving DecidableEq, Repr

/-- The first node directly below that says something by itself. -/
def firstNamed? (n : Node Kind) : Option (Node Kind) :=
  n.children.find? fun c => c.kind.isNamed

/-- The name to report when a node is met. The name of a tag is reported with
the tag itself, and only if it is the first thing in it. -/
def nameAt? (n : Node Kind) : Option (EventKind × Node Kind) :=
  match n.kind with
  | .startTag | .selfClosingTag =>
    ((firstNamed? n).filter fun c => c.kind == .tagName).map (.startTagName, ·)
  | .endTag => ((firstNamed? n).filter fun c => c.kind == .tagName).map (.endTagName, ·)
  | .strayName => some (.endTagName, n)
  | .attributeName => some (.attributeName, n)
  | _ => none

/-- Meets a node: adds its name to those found, the last one first, or fails
if it is a fault. -/
def meet (layout : Layout) (found : List Event) (n : Node Kind) : Except Fault (List Event) :=
  if n.kind.isFault then
    let (segment, offset) := layout.locate n.start
    .error ⟨segment, offset⟩
  else .ok (match nameAt? n with
    | none => found
    | some (kind, name) =>
      match layout.relative? name.start name.stop with
      | none => found
      | some (segment, start, stop) => ⟨kind, segment, start, stop, name.text⟩ :: found)

/-- The names in a tree up to its first fault, and that fault. -/
def eventsOf (layout : Layout) (tree : Syntax.Tree Kind) : List Event × Option Fault :=
  let (found, fault) := Node.walk (meet layout) [] ⟨0, tree⟩
  (found.reverse, fault)

/-- The names in segments of markup up to the first fault, and that fault, if
the joined segments are read with the given parser. -/
def eventsBy (parse : List Char → Syntax.Tree Kind) (segments : List String) :
    List Event × Option Fault :=
  let layout := Layout.ofLengths (segments.map String.utf8ByteSize)
  eventsOf layout (parse (String.join segments).toList)

end ElementLens.Markup
