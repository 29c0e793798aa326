/-
Texts for a reader.

A problem names the tag that has no definition, and stands where the tag name does. What is
shown for an element begins with a link to its class, and has a line for each property that
is not internal, with a link to where the property is declared.

* **`Diagnostic.reports_iff`** — the one problem that reports a tag name;
* **`Element.isShown_markdown`** — the text for an element shows the element.
-/
import ElementLens.Diagnostic
import ElementLens.Navigation.Hover
import Mathlib.Data.List.Forall2

namespace ElementLens

/-! ### Problems -/

/-- A problem reports a tag name: it stands where the tag name does, and names the tag. -/
structure Diagnostic.Reports (problem : Diagnostic) (token : Token) : Prop where
  range : problem.range = token.span
  message : problem.message
    = "Could not find local or imported definition for <" ++ token.tagName ++ ">."

namespace Diagnostic

variable {problem : Diagnostic} {problems : List Diagnostic} {token token' : Token}

theorem reports_iff : problem.Reports token ↔ problem = undefined token := by
  constructor
  · rintro ⟨hrange, hmessage⟩
    obtain ⟨range, message⟩ := problem
    exact congrArg₂ Diagnostic.mk hrange hmessage
  · rintro rfl
    exact ⟨rfl, rfl⟩

theorem forall₂_reports (tokens : List Token) :
    List.Forall₂ Reports (tokens.map undefined) tokens :=
  List.forall₂_map_left_iff.2 (List.forall₂_same.2 fun _ _ => reports_iff.2 rfl)

/-- A problem reports one tag name at one place. -/
theorem Reports.eq_of_reports (h : problem.Reports token) (h' : problem.Reports token') :
    token.span = token'.span ∧ token.tagName = token'.tagName := by
  refine ⟨h.range.symm.trans h'.range, ?_⟩
  have hchars := congrArg String.toList (h.message.symm.trans h'.message)
  simpa [String.toList_append, String.toList_inj] using hchars

end Diagnostic

/-! ### Elements -/

/-- A name with a link to a place. Lines and columns are counted from one. -/
def linkTo (name : String) (uri : Uri) (p : Position) : String :=
  "[" ++ name ++ "](" ++ uri.display ++ "#L" ++ toString (p.line + 1) ++ ","
    ++ toString (p.character + 1) ++ ")"

/-- A line shows a property: it links to where the property is declared, and says whether it
can only be read, and of which type it is, if it has one. -/
def Property.IsShown (p : Property) (uri : Uri) (line : String) : Prop :=
  line = linkTo p.key uri p.span.start ++ (if p.readOnly then " [read-only]" else "")
    ++ (p.typeName.elim "" fun name => " (" ++ name ++ ")")

/-- A text shows an element: it links to the class, and then shows, one to a line, the
properties that are not internal. -/
def Element.IsShown (e : Element) (tagName : String) (link : DefinitionLink) (text : String) :
    Prop :=
  ∃ lines, List.Forall₂ (fun p line => p.IsShown link.targetUri line)
      (e.properties.filter fun p => !p.internal) lines
    ∧ text = "\n\n".intercalate
      (("**The " ++ linkTo tagName link.targetUri link.target.start ++ " element.**") :: lines)

theorem intercalate_cons (sep first : String) (rest : List String) :
    sep.intercalate (first :: rest) = first ++ String.join (rest.map (sep ++ ·)) := by
  induction rest generalizing first with
  | nil => simp
  | cons next rest ih => simp [ih, String.append_assoc]

theorem linkTo_eq (name : String) (uri : Uri) (p : Position) :
    linkTo name uri p = s!"[{name}]({fileLink uri p})" := by
  simp [linkTo, fileLink, toString, String.append_assoc]

theorem Property.exists_isShown (p : Property) (uri : Uri) :
    ∃ line, p.IsShown uri line ∧ p.markdown uri = "\n\n" ++ line := by
  refine ⟨_, rfl, ?_⟩
  rw [markdown, linkTo_eq, ← String.toList_inj]
  cases p.typeName <;> simp [toString]

theorem Property.exists_forall₂_isShown (properties : List Property) (uri : Uri) :
    ∃ lines, List.Forall₂ (fun p line => p.IsShown uri line) properties lines
      ∧ properties.map (·.markdown uri) = lines.map ("\n\n" ++ ·) := by
  induction properties with
  | nil => exact ⟨[], .nil, rfl⟩
  | cons p properties ih =>
    obtain ⟨line, hline, htext⟩ := p.exists_isShown uri
    obtain ⟨lines, hlines, htexts⟩ := ih
    exact ⟨line :: lines, .cons hline hlines, by rw [List.map_cons, List.map_cons, htext, htexts]⟩

/-- **The text for an element shows the element.** -/
theorem Element.isShown_markdown (e : Element) (tagName : String) (link : DefinitionLink) :
    e.IsShown tagName link (e.markdown tagName link) := by
  obtain ⟨lines, hlines, htexts⟩ := Property.exists_forall₂_isShown
    (e.properties.filter fun p => !p.internal) link.targetUri
  refine ⟨lines, hlines, ?_⟩
  rw [markdown, htexts, intercalate_cons, linkTo_eq, ← String.toList_inj]
  simp [toString]

end ElementLens
