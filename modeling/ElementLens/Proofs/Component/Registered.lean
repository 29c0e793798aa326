/-
Several classes under one tag name.

A tag name may be registered for several classes of a document. The classes are
then inserted as they are declared, each in the place of the one before, so the
one declared last is kept. The order of the registrations decides which tag name
a class has, but not which class a tag name has.

* **`Extraction.elements_visitAll`** — what a walk finds, with any tokenizer;
* **`Elements.get?_foldl_insert`** — the last insertion under a name is the one
  that is found;
* **`Registration.lastOf?_eq_some_iff`** — which of some classes is registered
  last;
* **`element?_eq_getLast?`** — the element with a tag name.
-/
import ElementLens.Proofs.Component.Fidelity
import ElementLens.Proofs.Table

namespace ElementLens

open Syntax (Node)

/-! ### Elements of a script -/

namespace Extraction

variable {d : Document} {filePath : Path} {tokenizer : Markup.Tokenizer}

theorem elements_addTemplate {x y : Extraction} {t : Template.Literal}
    (h : x.addTemplate d tokenizer t = .ok y) : y.elements = x.elements := by
  unfold addTemplate at h
  split at h
  · exact absurd h (by simp)
  · rw [← Except.ok.inj h]

/-- A visit adds the element of its node, whatever the tokenizer does. -/
theorem elements_visit {x y : Extraction} {n : ScriptNode}
    (h : x.visit d filePath tokenizer (Registration.scan d.text) n = .ok y) :
    y.elements = (elementAt? d n).toList.foldl (fun es e => es.insert e.1 e.2) x.elements := by
  unfold visit at h
  split at h
  · rename_i hkind
    rw [elementAt?, if_neg (by simp [hkind])]
    split at h
    · rw [← Except.ok.inj h]
      rfl
    · exact elements_addTemplate h
  · rename_i hkind
    rw [← Except.ok.inj h, elementAt?, if_pos hkind, addClass]
    cases n.child? (.terminal .name) with
    | none => rfl
    | some name =>
      cases htag : Registration.tagOf? (Registration.scan d.text) name.text <;> simp [htag]
  · rename_i hkind
    rw [← Except.ok.inj h, elementAt?, if_neg (by simp [hkind]), addImport]
    cases ImportEdge.ofStatement? filePath n <;> rfl
  · rename_i hclass _
    rw [← Except.ok.inj h, elementAt?, if_neg hclass]
    rfl

/-- A walk to the end adds the elements of all nodes, in their order. -/
theorem elements_visitAll {x y : Extraction} {ns : List ScriptNode}
    (h : Node.visitAll (visit d filePath tokenizer (Registration.scan d.text)) x ns = (y, none)) :
    y.elements = (ns.filterMap (elementAt? d)).foldl (fun es e => es.insert e.1 e.2)
      x.elements := by
  induction ns generalizing x with
  | nil => rw [← (Prod.mk.inj h).1]; rfl
  | cons n ns ih =>
    rw [Node.visitAll] at h
    split at h
    · exact absurd (Prod.mk.inj h).2 (by simp)
    · next next hnext =>
      rw [ih h, elements_visit hnext]
      cases hn : elementAt? d n <;> simp [hn]

end Extraction

/-- The elements of a record are those of the script, one inserted after the
other. -/
theorem elements_of_extractBy {parse? : List Char → Option (Syntax.Tree Script.Kind)}
    {tokenizer : Markup.Tokenizer} {d : Document} {r : Record}
    (h : (extractBy parse? d tokenizer).1 = .ok r) :
    ∃ tree, parse? d.text.toList = some tree
      ∧ r.elements = ((Node.preorder ⟨0, tree⟩).filterMap (elementAt? d)).foldl
          (fun es e => Elements.insert es e.1 e.2) [] := by
  unfold extractBy at h
  split at h
  · exact absurd h (by simp)
  split at h
  · exact absurd h (by simp)
  next filePath _ _ tree hparse =>
    simp only [Node.walk_eq_visitAll] at h
    rcases hwalk : Node.visitAll
      (Extraction.visit d filePath tokenizer (Registration.scan d.text)) Extraction.empty
      (Node.preorder ⟨0, tree⟩) with ⟨x, failure⟩
    rw [hwalk] at h
    cases failure with
    | some e => exact absurd h (by simp)
    | none =>
      refine ⟨tree, hparse, ?_⟩
      rw [← Except.ok.inj h]
      exact Extraction.elements_visitAll hwalk

/-- An element is found under the name it was last given for. -/
theorem Elements.get?_insert (es : Elements) (tagName : String) (element : Element)
    (name : String) :
    (es.insert tagName element).get? name
      = if name = tagName then some element else es.get? name := by
  have hothers := find?_filter_ne Prod.fst es tagName name
  simp only [decide_not, ← beq_eq_decide] at hothers
  unfold get? insert bne
  rw [List.find?_append, hothers, List.find?_singleton]
  by_cases hname : name = tagName
  · simp [hname]
  · simp [hname, Ne.symm hname]

/-- After some insertions, the last of them under a name is the one that is
found. -/
theorem Elements.get?_foldl_insert (es : Elements) (found : List (String × Element))
    (tagName : String) :
    (found.foldl (fun es e => Elements.insert es e.1 e.2) es).get? tagName
      = (((found.filter (·.1 = tagName)).map Prod.snd).getLast?).or (es.get? tagName) := by
  induction found using List.reverseRecOn with
  | nil => rfl
  | append_singleton found e ih =>
    rw [List.foldl_append, List.foldl_cons, List.foldl_nil, Elements.get?_insert, ih,
      List.filter_append, List.map_append]
    by_cases he : tagName = e.1
    · subst he
      simp
    · have hne : ¬ e.1 = tagName := fun h => he h.symm
      simp [he, hne]

/-! ### The order of registrations -/

namespace Registration

/-- How many registrations stand behind the last one of a class. -/
def behind (rs : List Registration) (name : String) : Nat :=
  (rs.reverse.map (·.constructorName)).idxOf name

/-- Of some classes, the one that is registered last. -/
def lastOf? (rs : List Registration) (names : List String) : Option String :=
  (rs.reverse.map (·.constructorName)).find? (· ∈ names)

theorem find?_mem_eq_some_iff {l names : List String} {a : String} (hmem : a ∈ l) (ha : a ∈ names) :
    l.find? (· ∈ names) = some a ↔ ∀ b ∈ names, l.idxOf a ≤ l.idxOf b := by
  induction l with
  | nil => exact absurd hmem (by simp)
  | cons first l ih =>
    by_cases hfirst : first ∈ names
    · rw [List.find?_cons_of_pos (by simpa using hfirst)]
      constructor
      · intro h b _
        rw [Option.some.inj h, List.idxOf_cons_self]
        exact Nat.zero_le _
      · intro h
        have hzero := h first hfirst
        rw [List.idxOf_cons_self, Nat.le_zero] at hzero
        by_contra hne
        rw [List.idxOf_cons_ne _ fun heq => hne (congrArg some heq)] at hzero
        exact absurd hzero (by simp)
    · have hne {b : String} (hb : b ∈ names) : first ≠ b := fun h => hfirst (h ▸ hb)
      have hmem' : a ∈ l := (List.mem_cons.1 hmem).resolve_left fun h => hne ha h.symm
      rw [List.find?_cons_of_neg (by simpa using hfirst), ih hmem']
      refine forall₂_congr fun b hb => ?_
      rw [List.idxOf_cons_ne _ (hne ha), List.idxOf_cons_ne _ (hne hb), Nat.succ_le_succ_iff]

/-- A class is the one registered last if no other is registered behind it. -/
theorem lastOf?_eq_some_iff {rs : List Registration} {names : List String} {name : String}
    (hregistered : name ∈ rs.map (·.constructorName)) (hname : name ∈ names) :
    lastOf? rs names = some name ↔ ∀ other ∈ names, behind rs name ≤ behind rs other :=
  find?_mem_eq_some_iff (by simpa using hregistered) hname

end Registration

/-! ### The element with a tag name -/

/-- The elements that the classes of a script define under a tag name, in the
order in which the classes are declared. -/
def definitionsOf (d : Document) (tree : Syntax.Tree Script.Kind) (tagName : String) :
    List Element :=
  (((Node.preorder ⟨0, tree⟩).filterMap (elementAt? d)).filter (·.1 = tagName)).map Prod.snd

/-- Inserted one after the other, the last element under a tag name is kept. -/
theorem get?_elementsOf (d : Document) (tree : Syntax.Tree Script.Kind) (tagName : String) :
    Elements.get? (((Node.preorder ⟨0, tree⟩).filterMap (elementAt? d)).foldl
        (fun es e => Elements.insert es e.1 e.2) []) tagName
      = (definitionsOf d tree tagName).getLast? := by
  rw [Elements.get?_foldl_insert]
  exact Option.or_none

theorem registered_of_mem_definitionsOf {d : Document} {tree : Syntax.Tree Script.Kind}
    {tagName : String} {e : Element} (h : e ∈ definitionsOf d tree tagName) :
    e.constructorName ∈ (Registration.scan d.text).map (·.constructorName) := by
  obtain ⟨entry, hentry, rfl⟩ := List.mem_map.1 h
  obtain ⟨n, -, hn⟩ := List.mem_filterMap.1 (List.mem_of_mem_filter hentry)
  unfold elementAt? at hn
  split at hn
  · obtain ⟨name, -, hn⟩ := Option.bind_eq_some_iff.1 hn
    obtain ⟨tag, htag, rfl⟩ := Option.map_eq_some_iff.1 hn
    obtain ⟨r, hfind, -⟩ := Option.map_eq_some_iff.1 htag
    have hr : r.constructorName = name.text := by simpa using List.find?_some hfind
    exact List.mem_map.2 ⟨r, List.mem_reverse.1 (List.mem_of_find?_eq_some hfind), hr⟩
  · exact absurd hn (by simp)

/-- **The class declared last is the one that is kept.** Scripts may be read with
any parser, and markup with any tokenizer. This is the class registered last if
and only if none of the others is registered behind it. -/
theorem element?_eq_getLast? {parse? : List Char → Option (Syntax.Tree Script.Kind)}
    {tokenizer : Markup.Tokenizer} {d : Document} {r : Record}
    (h : (extractBy parse? d tokenizer).1 = .ok r) :
    ∃ tree, parse? d.text.toList = some tree ∧ ∀ tagName,
      r.element? tagName = (definitionsOf d tree tagName).getLast?
        ∧ ∀ kept, r.element? tagName = some kept →
          (Registration.lastOf? (Registration.scan d.text)
                ((definitionsOf d tree tagName).map (·.constructorName))
              = some kept.constructorName
            ↔ ∀ e ∈ definitionsOf d tree tagName,
                Registration.behind (Registration.scan d.text) kept.constructorName
                  ≤ Registration.behind (Registration.scan d.text) e.constructorName) := by
  obtain ⟨tree, hparse, helements⟩ := elements_of_extractBy h
  have hlast (tagName : String) :
      r.element? tagName = (definitionsOf d tree tagName).getLast? := by
    rw [Record.element?, helements, get?_elementsOf]
  refine ⟨tree, hparse, fun tagName => ⟨hlast tagName, fun kept hkept => ?_⟩⟩
  have hmem : kept ∈ definitionsOf d tree tagName :=
    List.mem_of_getLast? ((hlast tagName).symm.trans hkept)
  rw [Registration.lastOf?_eq_some_iff (registered_of_mem_definitionsOf hmem)
    (List.mem_map_of_mem hmem), List.forall_mem_map]

/-! ### Declared in one order, registered in the other

    class B{}
    class A{}
    customElements.define('x-el', A);
    customElements.define('x-el', B);
-/

namespace Rivals

/-- The declaration of a class without members. -/
def declaration (name : String) : Syntax.Tree Script.Kind :=
  .branch (.construct .classDeclaration)
    [.leaf (.terminal (.literal "class")) "class", .leaf .blank " ",
      .leaf (.terminal .name) name,
      .branch (.construct .classBody)
        [.leaf (.terminal (.literal "\x7b")) "\x7b",
          .leaf (.terminal (.literal "\x7d")) "\x7d"]]

/-- The statement that registers a class. -/
def registration (tagName name : String) : Syntax.Tree Script.Kind :=
  .branch (.construct .expressionStatement)
    [.branch (.construct .call)
      [.branch (.construct .member)
          [.leaf (.terminal .name) "customElements", .leaf (.terminal (.literal ".")) ".",
            .leaf .propertyName "define"],
        .branch (.construct .arguments)
          [.leaf (.terminal (.literal "(")) "(",
            .branch (.construct .string)
              [.leaf (.terminal (.literal "'")) "'", .leaf (.terminal .singleFragment) tagName,
                .leaf (.terminal (.literal "'")) "'"],
            .leaf (.terminal (.literal ",")) ",", .leaf .blank " ",
            .leaf (.terminal .name) name, .leaf (.terminal (.literal ")")) ")"]],
      .leaf (.terminal (.literal ";")) ";"]

/-- The tree of the script. -/
def script : Syntax.Tree Script.Kind :=
  .branch (.construct .program)
    [declaration "B", .leaf .blank "\n", declaration "A", .leaf .blank "\n",
      registration "x-el" "A", .leaf .blank "\n", registration "x-el" "B"]

/-- Reads the script. -/
def parse? (cs : List Char) : Option (Syntax.Tree Script.Kind) :=
  if script.text = cs then some script else none

/-- Reads all markup as text. -/
def tokenizer : Markup.Tokenizer :=
  Markup.tokenizeBy fun cs => .leaf .text (String.ofList cs)

/-- The script as a document. -/
def document : Document := .ofText Sample.uri 1 (String.ofList script.text)

/-- The record of the script. -/
def record : Record :=
  recordOf document (fun cs => .leaf .text (String.ofList cs)) (.ofText "/a.js") script

theorem parse?_document : parse? document.text.toList = some script := by
  rw [document, Document.ofText, String.toList_ofList]
  exact if_pos rfl

theorem extract_document : (extractBy parse? document tokenizer).1 = .ok record := by
  have hpath : Sample.uri.toPath? = some (.ofText "/a.js") := by cbv
  exact extractBy_eq hpath parse?_document

theorem scan_document :
    Registration.scan document.text = [⟨"A", "x-el"⟩, ⟨"B", "x-el"⟩] := by
  show (Registration.pattern.findAll (String.ofList script.text).toList).filterMap
    Registration.ofCaptures? = _
  rw [String.toList_ofList]
  cbv

theorem elements_script :
    ∃ b a : Element, (Node.preorder ⟨0, script⟩).filterMap (elementAt? document)
      = [("x-el", b), ("x-el", a)] ∧ b.constructorName = "B" ∧ a.constructorName = "A" := by
  have hb : Registration.tagOf? (Registration.scan document.text) "B" = some "x-el" := by
    rw [scan_document]
    decide
  have ha : Registration.tagOf? (Registration.scan document.text) "A" = some "x-el" := by
    rw [scan_document]
    decide
  simp [script, declaration, registration, Syntax.Tree.branch, Node.preorder, Node.preorderOf,
    elementAt?, Node.kind, Syntax.Tree.kind, ScriptNode.child?, Node.children,
    Syntax.Tree.children, Node.placeFrom, Node.text, ha, hb, Element.ofClass]

theorem definitionsOf_script :
    (definitionsOf document script "x-el").map (·.constructorName) = ["B", "A"] := by
  obtain ⟨b, a, helements, hb, ha⟩ := elements_script
  simp [definitionsOf, helements, hb, ha]

theorem element?_record : (record.element? "x-el").map (·.constructorName) = some "A" := by
  obtain ⟨b, a, helements, hb, ha⟩ := elements_script
  simp [record, recordOf, Record.element?, helements, Elements.get?_insert, ha]

end Rivals

theorem rivals_last_declared :
    (extractBy Rivals.parse? Rivals.document Rivals.tokenizer).1 = .ok Rivals.record
      ∧ ∃ tree, Rivals.parse? Rivals.document.text.toList = some tree
        ∧ (definitionsOf Rivals.document tree "x-el").map (·.constructorName) = ["B", "A"]
        ∧ Rivals.record.element? "x-el"
          = (definitionsOf Rivals.document tree "x-el").getLast? := by
  refine ⟨Rivals.extract_document, ?_⟩
  obtain ⟨tree, hparse, h⟩ := element?_eq_getLast? Rivals.extract_document
  obtain rfl : tree = Rivals.script := Option.some.inj (hparse.symm.trans Rivals.parse?_document)
  exact ⟨_, hparse, Rivals.definitionsOf_script, (h "x-el").1⟩

/-- The class registered last need not be the one that is kept. -/
theorem rivals_registered_last_lost :
    (extractBy Rivals.parse? Rivals.document Rivals.tokenizer).1 = .ok Rivals.record
      ∧ Registration.scan Rivals.document.text = [⟨"A", "x-el"⟩, ⟨"B", "x-el"⟩]
      ∧ (definitionsOf Rivals.document Rivals.script "x-el").map (·.constructorName) = ["B", "A"]
      ∧ Registration.lastOf? (Registration.scan Rivals.document.text)
          ((definitionsOf Rivals.document Rivals.script "x-el").map (·.constructorName)) = some "B"
      ∧ (Rivals.record.element? "x-el").map (·.constructorName) = some "A" := by
  refine ⟨Rivals.extract_document, Rivals.scan_document, Rivals.definitionsOf_script, ?_,
    Rivals.element?_record⟩
  rw [Rivals.definitionsOf_script, Rivals.scan_document]
  decide

end ElementLens
