/-
What the record of a document contains.

A visit adds what is found at its node and leaves the rest alone. With the
tokenizer that reads markup no visit fails, so a record lists what is found at
the nodes of the script in preorder:

* **`Extraction.visit_eq`** — one visit;
* **`Extraction.foldl_next`** — all visits;
* **`extractBy_eq`** — the record of a document that has one;
* **`of_extractBy`** — every record is of this form.
-/
import ElementLens.Component.Extract
import ElementLens.Proofs.Syntax.Places

namespace ElementLens

open Syntax (Node)

/-- The markup template of a node. -/
def templateAt? (n : ScriptNode) : Option Template.Literal :=
  if n.kind = .construct .call then Template.ofCall? n else none

/-- The element that a node defines, with its tag name. -/
def elementAt? (d : Document) (n : ScriptNode) : Option (String × Element) :=
  if n.kind = .construct .classDeclaration then
    (n.child? (.terminal .name)).bind fun name =>
      (Registration.tagOf? (Registration.scan d.text) name.text).map
        (·, Element.ofClass d n name)
  else none

/-- The edge of a node. -/
def edgeAt? (filePath : Path) (n : ScriptNode) : Option ImportEdge :=
  if n.kind = .construct .importStatement then ImportEdge.ofStatement? filePath n else none

section Parser

variable (d : Document) (parse : List Char → Syntax.Tree Markup.Kind)

/-- The custom tag names of a template. -/
def tokensOf (t : Template.Literal) : List Token :=
  (Markup.eventsBy parse (t.segments.map (·.raw))).1.filterMap (Extraction.token? d t.segments)

/-- The block of a template. -/
def blockOf (t : Template.Literal) : TemplateBlock :=
  ⟨d.spanOf t.start t.stop, tokensOf d parse t⟩

/-- The early stop in a template. -/
def stopOf? (t : Template.Literal) : Option EarlyStop :=
  (Markup.eventsBy parse (t.segments.map (·.raw))).2.map fun fault =>
    ⟨d.uri, (tokensOf d parse t).length, .malformed fault⟩

/-- The record of a script. -/
def recordOf (filePath : Path) (tree : Syntax.Tree Script.Kind) : Record where
  filePath
  imports := (Node.preorder ⟨0, tree⟩).filterMap (edgeAt? filePath)
  elements := ((Node.preorder ⟨0, tree⟩).filterMap (elementAt? d)).foldl
    (fun es e => es.insert e.1 e.2) []
  templates := ((Node.preorder ⟨0, tree⟩).filterMap templateAt?).map (blockOf d parse)

namespace Extraction

/-- What was found after one more node. -/
def next (filePath : Path) (x : Extraction) (n : ScriptNode) : Extraction where
  imports := (edgeAt? filePath n).toList ++ x.imports
  elements := (elementAt? d n).toList.foldl (fun es e => es.insert e.1 e.2) x.elements
  templates := ((templateAt? n).map (blockOf d parse)).toList ++ x.templates
  stops := ((templateAt? n).bind (stopOf? d parse)).toList ++ x.stops

theorem addTemplate_eq (x : Extraction) (t : Template.Literal) :
    x.addTemplate d (Markup.tokenizeBy parse) t = .ok { x with
      templates := blockOf d parse t :: x.templates
      stops := (stopOf? d parse t).toList ++ x.stops } := by
  unfold addTemplate Markup.tokenizeBy stopOf? blockOf tokensOf
  cases Markup.eventsBy parse (t.segments.map (·.raw)) with
  | mk found fault => cases fault <;> rfl

theorem visit_eq (filePath : Path) (x : Extraction) (n : ScriptNode) :
    x.visit d filePath (Markup.tokenizeBy parse) (Registration.scan d.text) n
      = .ok (x.next d parse filePath n) := by
  unfold visit next
  split
  · rename_i hkind
    cases ht : Template.ofCall? n <;>
      simp [templateAt?, elementAt?, edgeAt?, hkind, ht, addTemplate_eq]
  · rename_i hkind
    cases hname : n.child? (.terminal .name) with
    | none => simp [templateAt?, elementAt?, edgeAt?, hkind, addClass, hname]
    | some name =>
      cases htag : Registration.tagOf? (Registration.scan d.text) name.text <;>
        simp [templateAt?, elementAt?, edgeAt?, hkind, addClass, hname, htag]
  · rename_i hkind
    cases hedge : ImportEdge.ofStatement? filePath n <;>
      simp [templateAt?, elementAt?, edgeAt?, hkind, addImport, hedge]
  · rename_i hcall hclass himport
    rw [templateAt?, elementAt?, edgeAt?, if_neg hcall, if_neg hclass, if_neg himport]
    rfl

theorem foldl_next (filePath : Path) (x : Extraction) (ns : List ScriptNode) :
    (ns.foldl (next d parse filePath) x).imports.reverse
        = x.imports.reverse ++ ns.filterMap (edgeAt? filePath)
      ∧ (ns.foldl (next d parse filePath) x).elements
        = (ns.filterMap (elementAt? d)).foldl (fun es e => es.insert e.1 e.2) x.elements
      ∧ (ns.foldl (next d parse filePath) x).templates.reverse
        = x.templates.reverse ++ (ns.filterMap templateAt?).map (blockOf d parse) := by
  induction ns generalizing x with
  | nil => simp
  | cons n ns ih =>
    rw [List.foldl_cons]
    obtain ⟨himports, helements, htemplates⟩ := ih (x.next d parse filePath n)
    rw [himports, helements, htemplates]
    refine ⟨?_, ?_, ?_⟩
    · cases h : edgeAt? filePath n <;> simp [next, h]
    · cases h : elementAt? d n <;> simp [next, h]
    · cases h : templateAt? n <;> simp [next, h]

end Extraction

variable {d parse} {parse? : List Char → Option (Syntax.Tree Script.Kind)}

/-- A document that has a path and is a script has a record. -/
theorem extractBy_eq {filePath : Path} {tree : Syntax.Tree Script.Kind}
    (hpath : d.uri.toPath? = some filePath) (hparse : parse? d.text.toList = some tree) :
    (extractBy parse? d (Markup.tokenizeBy parse)).1 = .ok (recordOf d parse filePath tree) := by
  obtain ⟨himports, helements, htemplates⟩ :=
    Extraction.foldl_next d parse filePath Extraction.empty (Node.preorder ⟨0, tree⟩)
  unfold extractBy
  simp only [hpath, hparse]
  rw [Node.walk_eq_visitAll, Node.visitAll_of_ok (Extraction.visit_eq d parse filePath)]
  simp only [Extraction.record, himports, helements, htemplates]
  rfl

/-- Every record is that of a script. -/
theorem of_extractBy {r : Record} (h : (extractBy parse? d (Markup.tokenizeBy parse)).1 = .ok r) :
    ∃ filePath tree, parse? d.text.toList = some tree ∧ r = recordOf d parse filePath tree := by
  cases hpath : d.uri.toPath? with
  | none => simp [extractBy, hpath] at h
  | some filePath =>
    cases hparse : parse? d.text.toList with
    | none => simp [extractBy, hpath, hparse] at h
    | some tree =>
      rw [extractBy_eq hpath hparse] at h
      exact ⟨filePath, tree, rfl, (Except.ok.inj h).symm⟩

end Parser

end ElementLens
