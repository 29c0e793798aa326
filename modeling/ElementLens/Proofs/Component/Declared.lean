/-
The elements of a record are its registered classes.

A tag name has an element if and only if a class declaration is registered under
it, at whatever depth of the script the declaration stands: in a function, in a
block, in another class, in a substitution of a template. The element is made of
one such declaration as a whole.

* **`Elements.get?_eq_some_iff`** — looking up an element and finding it in the
  list is the same;
* **`mem_definitionsOf`** — the elements of a script under a tag name;
* **`elements_are_registered`** — the elements of a record.
-/
import ElementLens.Proofs.Component.Registered

namespace ElementLens

open Syntax (Node)

/-! ### Tag names of elements -/

namespace Elements

variable {es : Elements} {tagName : String}

theorem isSome_get? : (es.get? tagName).isSome = true ↔ tagName ∈ es.map Prod.fst := by
  simp [get?, List.find?_isSome]

theorem get?_eq_some_iff (h : (es.map Prod.fst).Nodup) {e : Element} :
    es.get? tagName = some e ↔ (tagName, e) ∈ es := by
  induction es with
  | nil => simp [get?]
  | cons first es ih =>
    obtain ⟨hfirst, hrest⟩ := List.nodup_cons.1 h
    rw [get?] at ih ⊢
    by_cases hname : first.1 = tagName
    · have hnone : (tagName, e) ∉ es := fun hmem => hfirst (hname ▸ List.mem_map_of_mem hmem)
      rw [List.find?_cons_of_pos (by simpa using hname), List.mem_cons, or_iff_left hnone,
        Option.map_some, Option.some_inj]
      exact ⟨fun he => Prod.ext hname.symm he.symm, fun he => (congrArg Prod.snd he).symm⟩
    · have hne : (tagName, e) ≠ first := fun he => hname (congrArg Prod.fst he).symm
      rw [List.find?_cons_of_neg (by simpa using hname), ih hrest, List.mem_cons,
        or_iff_right hne]

theorem nodup_insert (h : (es.map Prod.fst).Nodup) (tagName : String) (e : Element) :
    ((es.insert tagName e).map Prod.fst).Nodup := by
  rw [insert, List.map_append, List.nodup_append]
  refine ⟨h.sublist (List.filter_sublist.map Prod.fst), List.nodup_singleton _, ?_⟩
  intro name hname other hother
  obtain ⟨entry, hentry, rfl⟩ := List.mem_map.1 hname
  obtain rfl : other = tagName := by simpa using hother
  simpa using (List.mem_filter.1 hentry).2

theorem nodup_foldl_insert (h : (es.map Prod.fst).Nodup) (found : List (String × Element)) :
    ((found.foldl (fun es e => Elements.insert es e.1 e.2) es).map Prod.fst).Nodup := by
  induction found generalizing es with
  | nil => exact h
  | cons e found ih => exact ih (nodup_insert h e.1 e.2)

end Elements

/-! ### Registered classes -/

/-- A class declaration with the given name is registered under a tag name. -/
structure ScriptNode.IsRegistered (d : Document) (tagName : String)
    (declaration name : ScriptNode) : Prop where
  kind_eq : Node.kind declaration = .construct .classDeclaration
  name_eq : declaration.child? (.terminal .name) = some name
  tag_eq : Registration.tagOf? (Registration.scan d.text) (Node.text name) = some tagName

theorem elementAt?_eq_some_iff {d : Document} {n : ScriptNode} {tagName : String} {e : Element} :
    elementAt? d n = some (tagName, e)
      ↔ ∃ name, ScriptNode.IsRegistered d tagName n name ∧ e = Element.ofClass d n name := by
  rw [elementAt?]
  constructor
  · intro h
    split at h
    · rename_i hkind
      obtain ⟨name, hname, h⟩ := Option.bind_eq_some_iff.1 h
      obtain ⟨tag, htag, heq⟩ := Option.map_eq_some_iff.1 h
      obtain ⟨rfl, rfl⟩ := Prod.mk.inj heq
      exact ⟨name, ⟨hkind, hname, htag⟩, rfl⟩
    · exact absurd h (by simp)
  · rintro ⟨name, ⟨hkind, hname, htag⟩, rfl⟩
    rw [if_pos hkind, hname, Option.bind_some, htag, Option.map_some]

/-- The elements of a script under a tag name are those of the classes that are registered
under it. -/
theorem mem_definitionsOf {d : Document} {tree : Syntax.Tree Script.Kind} {tagName : String}
    {e : Element} :
    e ∈ definitionsOf d tree tagName
      ↔ ∃ n name, Node.Contains ⟨0, tree⟩ n ∧ ScriptNode.IsRegistered d tagName n name
          ∧ e = Element.ofClass d n name := by
  simp only [definitionsOf, List.mem_map, List.mem_filter, List.mem_filterMap,
    Node.mem_preorder_iff]
  constructor
  · rintro ⟨⟨tag, e⟩, ⟨⟨n, hn, hat⟩, htag⟩, rfl⟩
    obtain rfl : tag = tagName := by simpa using htag
    obtain ⟨name, hregistered, he⟩ := elementAt?_eq_some_iff.1 hat
    exact ⟨n, name, hn, hregistered, he⟩
  · rintro ⟨n, name, hn, hregistered, he⟩
    exact ⟨(tagName, e), ⟨⟨n, hn, elementAt?_eq_some_iff.2 ⟨name, hregistered, he⟩⟩, by simp⟩, rfl⟩

/-- **The elements of a record are its registered classes.** An element has the name of one
of them, the place of this name, and the properties of its body. Scripts may be read with any
parser, and markup with any tokenizer. -/
theorem elements_are_registered {parse? : List Char → Option (Syntax.Tree Script.Kind)}
    {tokenizer : Markup.Tokenizer} {d : Document} {r : Record}
    (h : (extractBy parse? d tokenizer).1 = .ok r) :
    ∃ tree, parse? d.text.toList = some tree
      ∧ (r.elements.map Prod.fst).Nodup
      ∧ ∀ tagName,
        (tagName ∈ r.elements.map Prod.fst
            ↔ ∃ n name, Node.Contains ⟨0, tree⟩ n ∧ ScriptNode.IsRegistered d tagName n name)
        ∧ ∀ e, (tagName, e) ∈ r.elements →
          (∃ n name, Node.Contains ⟨0, tree⟩ n ∧ ScriptNode.IsRegistered d tagName n name
              ∧ e = Element.ofClass d n name
              ∧ e.constructorName = Node.text name
              ∧ e.nameSpan = d.spanOf name.start name.stop
              ∧ e.properties = ((ScriptNode.child? n (.construct .classBody)).map
                  (Element.propertiesOf d)).getD [])
            ∧ Registration.tagOf? (Registration.scan d.text) e.constructorName = some tagName := by
  obtain ⟨tree, hparse, helements⟩ := elements_of_extractBy h
  have hnodup : (r.elements.map Prod.fst).Nodup := by
    rw [helements]
    exact @Elements.nodup_foldl_insert [] List.nodup_nil _
  have hlast (tagName : String) :
      r.elements.get? tagName = (definitionsOf d tree tagName).getLast? := by
    rw [helements, get?_elementsOf]
  refine ⟨tree, hparse, hnodup, fun tagName => ⟨?_, fun e he => ?_⟩⟩
  · rw [← Elements.isSome_get?, hlast, List.getLast?_isSome, ← List.isEmpty_eq_false_iff,
      List.isEmpty_eq_false_iff_exists_mem]
    simp only [mem_definitionsOf]
    constructor
    · rintro ⟨_, n, name, hn, hregistered, -⟩
      exact ⟨n, name, hn, hregistered⟩
    · rintro ⟨n, name, hn, hregistered⟩
      exact ⟨_, n, name, hn, hregistered, rfl⟩
  · have hmem : e ∈ definitionsOf d tree tagName :=
      List.mem_of_getLast? (hlast tagName ▸ (Elements.get?_eq_some_iff hnodup).2 he)
    obtain ⟨n, name, hn, hregistered, rfl⟩ := mem_definitionsOf.1 hmem
    exact ⟨⟨n, name, hn, hregistered, rfl, rfl, rfl, rfl⟩, hregistered.tag_eq⟩

/-! ### A registered class in one that is not

    function f(){class A{static{class B{}}}}//customElements.define('b-b', B)
-/

namespace Nest

/-- The declaration of a class with the given members. -/
def declaration (name : String) (members : List (Syntax.Tree Script.Kind)) :
    Syntax.Tree Script.Kind :=
  .branch (.construct .classDeclaration)
    [.leaf (.terminal (.literal "class")) "class", .leaf .blank " ",
      .leaf (.terminal .name) name,
      .branch (.construct .classBody)
        (.leaf (.terminal (.literal "\x7b")) "\x7b" :: members
          ++ [.leaf (.terminal (.literal "\x7d")) "\x7d"])]

/-- A block of one statement. -/
def block (statement : Syntax.Tree Script.Kind) : Syntax.Tree Script.Kind :=
  .branch (.construct .block)
    [.leaf (.terminal (.literal "\x7b")) "\x7b", statement,
      .leaf (.terminal (.literal "\x7d")) "\x7d"]

/-- The tree of the script. -/
def script : Syntax.Tree Script.Kind :=
  .branch (.construct .program)
    [.branch (.construct .functionDeclaration)
      [.leaf (.terminal (.literal "function")) "function", .leaf .blank " ",
        .leaf (.terminal .name) "f",
        .branch (.construct .parameters)
          [.leaf (.terminal (.literal "(")) "(", .leaf (.terminal (.literal ")")) ")"],
        block (declaration "A"
          [.branch (.construct .staticBlock)
            [.leaf (.terminal (.literal "static")) "static", block (declaration "B" [])]])],
      .leaf (.terminal .comment) "//customElements.define('b-b', B)"]

/-- Reads the script. -/
def parse? (cs : List Char) : Option (Syntax.Tree Script.Kind) :=
  if script.text = cs then some script else none

/-- Reads all markup as text. -/
def tokenizer : Markup.Tokenizer :=
  Markup.tokenizeBy fun cs => .leaf .text (String.ofList cs)

/-- The script as a document. -/
def document : Document := .ofText Sample.uri 1 (String.ofList script.text)

/-- The record of the script. -/
def record : Record :=
  recordOf document (fun cs => .leaf .text (String.ofList cs)) (.ofText "/a.js") script

theorem extract_document : (extractBy parse? document tokenizer).1 = .ok record := by
  have hpath : Sample.uri.toPath? = some (.ofText "/a.js") := by cbv
  refine extractBy_eq hpath (if_pos ?_)
  rw [document, Document.ofText, String.toList_ofList]

theorem scan_document : Registration.scan document.text = [⟨"B", "b-b"⟩] := by
  show (Registration.pattern.findAll (String.ofList script.text).toList).filterMap
    Registration.ofCaptures? = _
  rw [String.toList_ofList]
  cbv

theorem tagNames_document :
    record.elements.map (fun e => (e.1, e.2.constructorName)) = [("b-b", "B")] := by
  have ha : Registration.tagOf? (Registration.scan document.text) "A" = none := by
    rw [scan_document]
    decide
  have hb : Registration.tagOf? (Registration.scan document.text) "B" = some "b-b" := by
    rw [scan_document]
    decide
  simp [record, recordOf, script, declaration, block, Syntax.Tree.branch, Node.preorder,
    Node.preorderOf, elementAt?, Node.kind, Syntax.Tree.kind, ScriptNode.child?, Node.children,
    Syntax.Tree.children, Node.placeFrom, Node.text, ha, hb, Elements.insert, Element.ofClass]

end Nest

theorem nest_elements_are_registered :
    (extractBy Nest.parse? Nest.document Nest.tokenizer).1 = .ok Nest.record
      ∧ Nest.record.elements.map (fun e => (e.1, e.2.constructorName)) = [("b-b", "B")]
      ∧ (∃ n name, Node.Contains ⟨0, Nest.script⟩ n
          ∧ ScriptNode.IsRegistered Nest.document "b-b" n name)
      ∧ ¬ ∃ n name, Node.Contains ⟨0, Nest.script⟩ n
          ∧ ScriptNode.IsRegistered Nest.document "a-a" n name := by
  have hkeys : Nest.record.elements.map Prod.fst = ["b-b"] := by
    have h := congrArg (List.map Prod.fst) Nest.tagNames_document
    rwa [List.map_map] at h
  obtain ⟨tree, hparse, -, h⟩ := elements_are_registered Nest.extract_document
  obtain rfl : tree = Nest.script := by
    rw [Nest.document, Document.ofText, String.toList_ofList, Nest.parse?, if_pos rfl] at hparse
    exact (Option.some.inj hparse).symm
  refine ⟨Nest.extract_document, Nest.tagNames_document, (h "b-b").1.1 ?_, fun hother => ?_⟩
  · simp [hkeys]
  · simpa [hkeys] using (h "a-a").1.2 hother

end ElementLens
