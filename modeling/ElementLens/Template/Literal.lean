/-
Markup templates in scripts.

A markup template is a template literal behind the plain name `html`. Its
substitutions divide it into segments: the text before the first one, between
two of them, and after the last one, each possibly empty. So there is one
segment more than there are substitutions.
-/
import ElementLens.Script.Parse
import ElementLens.Template.Cooked

namespace ElementLens.Template

open Syntax (Node)

/-- A segment: the byte offset where it starts and its text as written. -/
structure Segment where
  start : Nat
  raw : String
deriving DecidableEq, Repr

/-- The value of a segment. -/
def Segment.cooked (s : Segment) : Option String := cook s.raw

/-- A markup template: the range of the literal, its quotes included, and its
segments. -/
structure Literal where
  start : Nat
  stop : Nat
  segments : List Segment
deriving Repr

/-- Divides the parts between the quotes of a literal at its substitutions.
`start` and `texts` belong to the segment being read, `texts` and `done` are in
reverse. -/
def divide (start : Nat) (texts : List String) (done : List Segment) :
    List (Node Script.Kind) → List Segment
  | [] => (⟨start, String.join texts.reverse⟩ :: done).reverse
  | n :: ns =>
    if n.kind = .construct .substitution then
      divide n.stop [] (⟨start, String.join texts.reverse⟩ :: done) ns
    else divide start (n.text :: texts) done ns

/-- The parts of a literal between its quotes. -/
def inside (literal : Node Script.Kind) : List (Node Script.Kind) :=
  literal.children.tail.dropLast

/-- The template of a node, if the node applies `html` to a literal. -/
def ofCall? (n : Node Script.Kind) : Option Literal :=
  let parts := n.children
  match parts.head?, parts.getLast? with
  | some tag, some literal =>
    if tag.kind == .terminal .name && tag.text == "html"
        && literal.kind == .construct .template then
      some ⟨literal.start, literal.stop, divide (literal.start + 1) [] [] (inside literal)⟩
    else none
  | _, _ => none

end ElementLens.Template
