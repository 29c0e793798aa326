/-
Parsing markup.

Every text has a tree: where the text breaks the rules, the parser goes on as
cheaply as it can, and the tree holds nodes for what is wrong or missing.

* **`parse`** — the tree of a text;
* **`text_parse`** — it spells the text, and
* **`measured_parse`** — its branches know their widths.
-/
import ElementLens.Markup.Lexer
import ElementLens.Parsing.Run
import ElementLens.Syntax.Cut

namespace ElementLens.Markup

open Syntax (Naming)

/-- How the shapes of markup are shown. -/
def naming : Naming Kind where
  whole := .whole
  blank := .blank
  error := .error
  missing := fun t => match Terminal.all[t]? with
    | some t => if t.kind.isNamed then .missing else .missingMark
    | none => .missingMark
  terminal := fun t => match Terminal.all[t]? with
    | some t => t.kind
    | none => .punctuation
  construct := fun c => match rules[c]? with
    | some (c, _) => c.kind?
    | none => none
  named := fun _ => []

/-- The tree of a text. -/
def parse (cs : List Char) : Syntax.Tree Kind :=
  match Parsing.shapeOf? language cs with
  | some shape => Syntax.cut naming shape cs
  | none => .branch .whole [.leaf .error (String.ofList cs)]

theorem text_parse (cs : List Char) : (parse cs).text = cs := by
  unfold parse
  split
  · exact Syntax.text_cut _ _ _
  · simp [Syntax.Tree.branch, Syntax.Tree.text]

theorem measured_parse (cs : List Char) : (parse cs).Measured := by
  unfold parse
  split
  · exact Syntax.measured_cut _ _ _
  · exact .node _ _ fun t ht => List.mem_singleton.1 ht ▸ .leaf _ _

end ElementLens.Markup
