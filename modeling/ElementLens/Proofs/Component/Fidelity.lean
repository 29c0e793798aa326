/-
Spans of a record hold the names they are given for.

A span is made of the positions of two offsets. Where the text between the
offsets is a name, without line ends in it, reading the positions again gives
the offsets back. Names of registered classes consist of letters and digits.

* **`Document.IsTabulated.holds_span`** — a name at the offsets of its span;
* **`Registration.names_of_scan`** — what registered names are made of;
* **`spans_hold_names`** — the tag names and the elements of a record.
-/
import ElementLens.Proofs.Component.Occurrences
import ElementLens.Proofs.Component.Tokens
import ElementLens.Proofs.Document.Synchronised
import Mathlib

namespace ElementLens

open Syntax Text Template

/-- The span of a name, taken back to offsets, holds the name. -/
theorem Document.IsTabulated.holds_span {d : Document} (h : d.IsTabulated) {start stop : Nat}
    {name : List Char} (hname : Holds d.text.toList start stop name) (hplain : IsPlain name)
    (hne : name ≠ []) :
    Holds d.text.toList (d.offsetAt (d.spanOf start stop).start)
      (d.offsetAt (d.spanOf start stop).stop) name := by
  obtain ⟨hstart, hstop⟩ := hname.isBoundary
  obtain ⟨hbreak, hbreak'⟩ := hname.not_insideBreak hplain hne
  show Holds d.text.toList (d.offsetAt (d.positionAt start)) (d.offsetAt (d.positionAt stop)) name
  rw [h.offsetAt_positionAt hstart hbreak, h.offsetAt_positionAt hstop hbreak']
  exact hname

/-! ### Registered names -/

namespace Registration

/-- Registered names consist of letters and digits. -/
theorem names_of_scan {text : String} {r : Registration} (h : r ∈ scan text) :
    r.constructorName.toList ≠ [] ∧ ∀ c ∈ r.constructorName.toList, c.isAlphanum = true := by
  rw [scan_eq] at h
  obtain ⟨-, after, -, hafter⟩ := mem_tails_filterMap.1 h
  exact (front?_eq_some_iff.1 hafter).2.1

theorem isPlain_of_tagOf? {text name tag : String} (h : tagOf? (scan text) name = some tag) :
    name.toList ≠ [] ∧ IsPlain name.toList := by
  obtain ⟨r, hfind, -⟩ := Option.map_eq_some_iff.1 h
  obtain rfl : r.constructorName = name := by simpa using List.find?_some hfind
  obtain ⟨hne, halphanum⟩ :=
    names_of_scan (List.mem_reverse.1 (List.mem_of_find?_eq_some hfind))
  refine ⟨hne, fun c hc => ⟨?_, ?_⟩⟩
  · rintro rfl
    exact absurd (halphanum _ hc) (by decide)
  · rintro rfl
    exact absurd (halphanum _ hc) (by decide)

end Registration

/-! ### Elements -/

theorem mem_foldl_insert {es : Elements} {found : List (String × Element)} {e : String × Element}
    (h : e ∈ found.foldl (fun es e => es.insert e.1 e.2) es) : e ∈ es ∨ e ∈ found := by
  induction found generalizing es with
  | nil => exact .inl h
  | cons first found ih =>
    rcases ih h with hmem | hmem
    · rcases List.mem_append.1 hmem with hold | hnew
      · exact .inl (List.mem_of_mem_filter hold)
      · exact .inr (List.mem_cons.2 (.inl (List.mem_singleton.1 hnew)))
    · exact .inr (List.mem_cons_of_mem first hmem)

/-- An element is named by a node below the declaration of a registered
class. -/
theorem elementAt?_eq_some {d : Document} {n : ScriptNode} {e : String × Element}
    (h : elementAt? d n = some e) :
    ∃ name ∈ Node.children n, e.2.constructorName = Node.text name
      ∧ e.2.nameSpan = d.spanOf name.start name.stop
      ∧ (Node.text name).toList ≠ [] ∧ IsPlain (Node.text name).toList := by
  unfold elementAt? at h
  split at h
  · obtain ⟨name, hname, h⟩ := Option.bind_eq_some_iff.1 h
    obtain ⟨tag, htag, rfl⟩ := Option.map_eq_some_iff.1 h
    exact ⟨name, List.mem_of_find?_eq_some hname, rfl, rfl, Registration.isPlain_of_tagOf? htag⟩
  · exact absurd h (by simp)

/-! ### Records -/

/-- **Spans hold the names they are given for.** Scripts and markup may be read
with any parsers whose trees are made of the text: every template literal begins
and ends with a quote, and there are no line ends in the names of tags. -/
theorem spans_hold_names {parse? : List Char → Option (Syntax.Tree Script.Kind)}
    {parse : List Char → Syntax.Tree Markup.Kind}
    (hscript : ∀ cs tree, parse? cs = some tree → tree.Spells cs ∧ Quoted tree)
    (hmarkup : ∀ cs, (parse cs).Spells cs ∧ Markup.PlainNames (parse cs))
    (uri : Uri) (version : Int) (text : String) {r : Record}
    (h : (extractBy parse? (Document.ofText uri version text) (Markup.tokenizeBy parse)).1
      = .ok r) :
    let d := Document.ofText uri version text
    (∀ block ∈ r.templates, ∀ token ∈ block.tokens,
      '-' ∈ token.tagName.toList
        ∧ Holds text.toList (d.offsetAt token.span.start) (d.offsetAt token.span.stop)
            token.tagName.toList)
      ∧ ∀ entry ∈ r.elements,
        Holds text.toList (d.offsetAt entry.2.nameSpan.start) (d.offsetAt entry.2.nameSpan.stop)
          entry.2.constructorName.toList := by
  intro d
  have htabulated : d.IsTabulated := Document.isTabulated_ofText uri version text
  obtain ⟨filePath, tree, hparse, rfl⟩ := of_extractBy h
  obtain ⟨hspells, hquoted⟩ := hscript _ tree hparse
  constructor
  · intro block hblock token htoken
    obtain ⟨t, ht, rfl⟩ := List.mem_map.1 hblock
    obtain ⟨n, literal, hliteral⟩ := templateOf_of_mem ht
    have hdivided := hliteral.divided hspells hquoted
    obtain ⟨s, -, a, b, hstands, -, -⟩ :=
      tokens_stand (fun cs => (hmarkup cs).1) hdivided token htoken
    have hplain := tokens_plain (fun cs => (hmarkup cs).2) token htoken
    refine ⟨hstands.custom, ?_⟩
    rw [hstands.span_eq]
    exact htabulated.holds_span hstands.holds hplain (List.ne_nil_of_mem hstands.custom)
  · intro entry hentry
    rcases mem_foldl_insert hentry with hnone | hentry
    · exact absurd hnone (by simp)
    obtain ⟨n, hn, hat⟩ := List.mem_filterMap.1 hentry
    obtain ⟨name, hname, hconstructor, hspan, hne, hplain⟩ := elementAt?_eq_some hat
    have hholds := ((hspells.inPlace.of_mem_preorder hn).child name hname).holds
    rw [← Node.toList_text] at hholds
    rw [hconstructor, hspan]
    exact htabulated.holds_span hholds hplain hne

/-! ### A script with a template in a template

    //customElements.define('a-b', A)
    class A{}html`<a-b>é
    ${html`<c-d/>`}</a-b>`;

The lines end with a line feed, with a carriage return and a line feed, and with
the text. -/

namespace Sample

/-- The tree of the script. -/
def script : Syntax.Tree Script.Kind :=
  .branch (.construct .program)
    [.leaf (.terminal .comment) "//customElements.define('a-b', A)", .leaf .blank "\n",
      .branch (.construct .classDeclaration)
        [.leaf (.terminal (.literal "class")) "class", .leaf .blank " ",
          .leaf (.terminal .name) "A",
          .branch (.construct .classBody)
            [.leaf (.terminal (.literal "\x7b")) "\x7b",
              .leaf (.terminal (.literal "\x7d")) "\x7d"]],
      .branch (.construct .expressionStatement)
        [.branch (.construct .call)
          [.leaf (.terminal .name) "html",
            .branch (.construct .template)
              [.leaf (.terminal (.literal "`")) "`",
                .leaf (.terminal .templateText) "<a-b>é\r\n",
                .branch (.construct .substitution)
                  [.leaf (.terminal (.literal "$\x7b")) "$\x7b",
                    .branch (.construct .call)
                      [.leaf (.terminal .name) "html",
                        .branch (.construct .template)
                          [.leaf (.terminal (.literal "`")) "`",
                            .leaf (.terminal .templateText) "<c-d/>",
                            .leaf (.terminal (.literal "`")) "`"]],
                    .leaf (.terminal (.literal "\x7d")) "\x7d"],
                .leaf (.terminal .templateText) "</a-b>",
                .leaf (.terminal (.literal "`")) "`"]],
          .leaf (.terminal (.literal ";")) ";"]]

/-- The markup of the outer template. -/
def outer : Syntax.Tree Markup.Kind :=
  .branch .fragment
    [.branch .element
      [.branch .startTag [.leaf .punctuation "<", .leaf .tagName "a-b", .leaf .punctuation ">"],
        .leaf .text "é", .leaf .blank "\r\n",
        .branch .endTag [.leaf .punctuation "</", .leaf .tagName "a-b", .leaf .punctuation ">"]]]

/-- The markup of the inner template. -/
def inner : Syntax.Tree Markup.Kind :=
  .branch .fragment
    [.branch .element
      [.branch .selfClosingTag
        [.leaf .punctuation "<", .leaf .tagName "c-d", .leaf .punctuation "/>"]]]

/-- Reads the script. -/
def parse? (cs : List Char) : Option (Syntax.Tree Script.Kind) :=
  if script.text = cs then some script else none

/-- Reads the markup of the two templates. -/
def parse (cs : List Char) : Syntax.Tree Markup.Kind :=
  if outer.text = cs then outer
  else if inner.text = cs then inner
  else .leaf .error (String.ofList cs)

/-- Where the script is. -/
def uri : Uri := ⟨"file", none, .segments ["a.js"], none, none⟩

/-- The script as a document. -/
def document : Document := .ofText uri 1 (String.ofList script.text)

theorem quoted_script : Quoted script := by
  simp [Quoted, script, Syntax.Tree.branch, Node.preorder, Node.preorderOf, Node.kind, Syntax.Tree.kind,
    Node.children, Syntax.Tree.children, Node.placeFrom, Node.text]

theorem parse?_eq_some {cs : List Char} {tree : Syntax.Tree Script.Kind} (h : parse? cs = some tree) :
    tree = script ∧ tree.Spells cs := by
  unfold parse? at h
  split at h
  · rename_i htext
    obtain rfl := Option.some.inj h
    exact ⟨rfl, htext, by simp [script, Syntax.Tree.measured_leaf, Syntax.Tree.measured_branch]⟩
  · exact absurd h (by simp)

theorem spells_parse (cs : List Char) : (parse cs).Spells cs := by
  unfold parse
  split
  · rename_i htext
    exact ⟨htext, by simp [outer, Syntax.Tree.measured_leaf, Syntax.Tree.measured_branch]⟩
  split
  · rename_i htext
    exact ⟨htext, by simp [inner, Syntax.Tree.measured_leaf, Syntax.Tree.measured_branch]⟩
  · exact ⟨by simp [Syntax.Tree.text], Syntax.Tree.measured_leaf _ _⟩

theorem plain_parse (cs : List Char) : Markup.PlainNames (parse cs) := by
  unfold parse Markup.PlainNames Markup.IsTagName IsPlain
  split
  · simp [outer, Syntax.Tree.branch, Node.preorder, Node.preorderOf, Node.kind, Syntax.Tree.kind, Syntax.Tree.text]
  split
  · simp [inner, Syntax.Tree.branch, Node.preorder, Node.preorderOf, Node.kind, Syntax.Tree.kind, Syntax.Tree.text]
  · simp [Node.preorder, Node.preorderOf, Node.kind, Syntax.Tree.kind]

theorem extract_document :
    (extractBy parse? document (Markup.tokenizeBy parse)).1
      = .ok (recordOf document parse (.ofText "/a.js") script) := by
  have hpath : uri.toPath? = some (.ofText "/a.js") := by cbv
  refine extractBy_eq hpath (if_pos ?_)
  rw [document, Document.ofText, String.toList_ofList]

theorem templates_script : (Node.preorder ⟨0, script⟩).filterMap templateAt?
    = [⟨47, 79, [⟨48, "<a-b>é\r\n"⟩, ⟨72, "</a-b>"⟩]⟩, ⟨63, 71, [⟨64, "<c-d/>"⟩]⟩] := by
  cbv

theorem tokens_document :
    (recordOf document parse (.ofText "/a.js") script).tokens
      = [⟨.startTagName, document.spanOf 49 52, "a-b"⟩, ⟨.endTagName, document.spanOf 74 77, "a-b"⟩,
        ⟨.startTagName, document.spanOf 65 68, "c-d"⟩] := by
  have houter : (Markup.eventsBy parse ["<a-b>é\r\n", "</a-b>"]).1
      = [⟨.startTagName, 0, 1, 4, "a-b"⟩, ⟨.endTagName, 1, 2, 5, "a-b"⟩] := by
    cbv
  have hinner : (Markup.eventsBy parse ["<c-d/>"]).1 = [⟨.startTagName, 0, 1, 4, "c-d"⟩] := by
    cbv
  simp [Record.tokens, recordOf, templates_script, blockOf, tokensOf, houter, hinner,
    Extraction.token?, Extraction.tokenKind?]

theorem names_document :
    (recordOf document parse (.ofText "/a.js") script).tokens.map Token.tagName
      = ["a-b", "a-b", "c-d"] := by
  rw [tokens_document]
  rfl

theorem elements_document :
    (recordOf document parse (.ofText "/a.js") script).elements.map (·.2.constructorName)
      = ["A"] := by
  have htag : Registration.tagOf? (Registration.scan document.text) "A" = some "a-b" := by
    show Registration.tagOf? ((Registration.pattern.findAll
      (String.ofList script.text).toList).filterMap Registration.ofCaptures?) "A" = _
    rw [String.toList_ofList]
    cbv
  simp [recordOf, script, Syntax.Tree.branch, Node.preorder, Node.preorderOf, elementAt?, Node.kind,
    Syntax.Tree.kind, ScriptNode.child?, Node.children, Syntax.Tree.children, Node.placeFrom, htag, Node.text,
    Elements.insert, Element.ofClass]

end Sample

theorem sample_spans_hold_names :
    ∃ r, (extractBy Sample.parse? Sample.document (Markup.tokenizeBy Sample.parse)).1 = .ok r
      ∧ r.tokens.map Token.tagName = ["a-b", "a-b", "c-d"]
      ∧ r.elements.map (·.2.constructorName) = ["A"]
      ∧ (∀ block ∈ r.templates, ∀ token ∈ block.tokens,
          '-' ∈ token.tagName.toList
            ∧ Holds Sample.document.text.toList (Sample.document.offsetAt token.span.start)
                (Sample.document.offsetAt token.span.stop) token.tagName.toList)
      ∧ ∀ entry ∈ r.elements,
          Holds Sample.document.text.toList (Sample.document.offsetAt entry.2.nameSpan.start)
            (Sample.document.offsetAt entry.2.nameSpan.stop) entry.2.constructorName.toList := by
  refine ⟨_, Sample.extract_document, Sample.names_document, Sample.elements_document, ?_⟩
  refine spans_hold_names ?_ (fun cs => ⟨Sample.spells_parse cs, Sample.plain_parse cs⟩)
    _ _ _ Sample.extract_document
  intro cs tree h
  obtain ⟨rfl, hspells⟩ := Sample.parse?_eq_some h
  exact ⟨hspells, Sample.quoted_script⟩

end ElementLens
