/-
Parsing scripts.

A text is a script if the grammar spells it. The tree of a script keeps all
of its text, blanks and comments included.

* **`parse?`** — the tree of a script, if the text is one;
* **`text_parse?`** — it spells the text, and
* **`measured_parse?`** — its branches know their widths.
-/
import ElementLens.Parsing.Run
import ElementLens.Script.Lexer
import ElementLens.Syntax.Cut

namespace ElementLens.Script

open Syntax (Naming)

/-- The names of the steps of each production. -/
def stepKinds : Array (List (Option Kind)) :=
  table.productions.map fun p => p.steps.toList.map fun s : Grammar.Step _ Kind => s.shown

/-- How the shapes of scripts are shown. -/
def naming : Naming Kind where
  whole := .construct .program
  blank := .blank
  error := .unreadable
  missing := fun _ => .unreadable
  terminal := fun t => match terminalAt? t with
    | some t => .terminal t
    | none => .unreadable
  construct := fun c => match constructAt? c with
    | some c => if c.isShown then some (.construct c) else none
    | none => none
  named := fun p => stepKinds.getD p []

/-- The tree of a script, if the text is one. The character NUL stands
nowhere in a script. -/
def parse? (cs : List Char) : Option (Syntax.Tree Kind) :=
  if cs.any fun c => c.toNat == 0 then none
  else (Parsing.shapeOf? language cs).map fun shape => Syntax.cut naming shape cs

theorem text_parse? (cs : List Char) (t : Syntax.Tree Kind) (h : parse? cs = some t) : t.text = cs := by
  unfold parse? at h
  split at h
  · simp at h
  · obtain ⟨shape, _, rfl⟩ := Option.map_eq_some_iff.1 h
    exact Syntax.text_cut _ _ _

theorem measured_parse? (cs : List Char) (t : Syntax.Tree Kind) (h : parse? cs = some t) :
    t.Measured := by
  unfold parse? at h
  split at h
  · simp at h
  · obtain ⟨shape, _, rfl⟩ := Option.map_eq_some_iff.1 h
    exact Syntax.measured_cut _ _ _

end ElementLens.Script
