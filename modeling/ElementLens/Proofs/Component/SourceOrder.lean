/-
Custom tag names in the order of the source.

A record lists its templates in preorder, and the tag names template by template.
Those of one template are in order, and so are those of templates that come one behind
the other. But a template within another one is listed behind it, though some tag names
of the outer template may stand behind it:

* **`templates_follow`** — a template comes behind the one before it, or within it;
* **`recordOf_tokens_in_order`** — the tag names of one template;
* **`tokens_sorted_iff`** — when all tag names of a record are in order.
-/
import ElementLens.Proofs.Component.Nesting

namespace ElementLens

open Syntax Text Template

/-- There are no calls in what stands before the literal of a markup template: the tag
is a plain name. -/
def PlainTags (tree : Syntax.Tree Script.Kind) : Prop :=
  ∀ n ∈ Node.preorder ⟨0, tree⟩, (templateAt? n).isSome →
    ∀ c ∈ n.children.dropLast, ∀ m ∈ c.preorder, m.kind ≠ .construct .call

/-- A template comes behind one that is before it in preorder, or within that one. -/
theorem templates_follow {tree : Syntax.Tree Script.Kind} {cs : List Char}
    (hspells : tree.Spells cs) (hquoted : Quoted tree) (hcalls : CallsInSubstitutions tree)
    (htags : PlainTags tree) :
    ((Node.preorder ⟨0, tree⟩).filterMap templateAt?).Pairwise fun t t' =>
      t.stop ≤ t'.start ∨ t.Surrounds t' := by
  rw [List.pairwise_filterMap]
  refine (Node.pairwise_preorder hspells.measured).imp_of_mem ?_
  intro n n' hn hn' hpair t ht t' ht'
  obtain ⟨literal, h⟩ := templateOf_templateAt? hn ht
  obtain ⟨literal', h'⟩ := templateOf_templateAt? hn' ht'
  rcases h.placed h' hspells hquoted hcalls hpair with hbehind | hsurrounds | ⟨c, hc, hbelow⟩
  · exact .inl hbehind
  · exact .inr hsurrounds
  · exact absurd h'.isCall (htags n hn (by rw [ht, Option.isSome_some]) c hc n' hbelow)

section Record

variable {d : Document} {parse : List Char → Syntax.Tree Markup.Kind} {tree : Syntax.Tree Script.Kind}
  (filePath : Path)

theorem recordOf_templates_follow (htabulated : d.IsTabulated)
    (hspells : tree.Spells d.text.toList) (hquoted : Quoted tree)
    (hcalls : CallsInSubstitutions tree) (htags : PlainTags tree) :
    (recordOf d parse filePath tree).templates.Pairwise fun a b =>
      a.span.stop ≤ b.span.start ∨ b.span.Inside a.span := by
  show (List.map _ _).Pairwise _
  rw [List.pairwise_map]
  refine (templates_follow hspells hquoted hcalls htags).imp_of_mem ?_
  intro t t' ht ht' hfollows
  obtain ⟨n, literal, h⟩ := templateOf_of_mem ht
  obtain ⟨n', literal', h'⟩ := templateOf_of_mem ht'
  obtain ⟨hstart, hstop⟩ := h.isBoundary hspells
  obtain ⟨hstart', hstop'⟩ := h'.isBoundary hspells
  rcases hfollows with hbehind | hsurrounds
  · exact .inl (positionAt_le htabulated.tabulates hstop hstart' hbehind)
  · exact .inr ⟨positionAt_lt htabulated.tabulates hstart hstart' hsurrounds.start_lt,
      positionAt_lt htabulated.tabulates hstop' hstop hsurrounds.stop_lt⟩

/-- The tag names of one template are in order. -/
theorem recordOf_tokens_in_order (htabulated : d.IsTabulated)
    (hspells : tree.Spells d.text.toList) (hquoted : Quoted tree)
    (hmarkup : ∀ cs, (parse cs).Spells cs) (hleaf : ∀ cs, Markup.LeafNames (parse cs))
    (hmarks : ∀ cs, Markup.LeafMarks (parse cs)) :
    ∀ block ∈ (recordOf d parse filePath tree).templates,
      block.tokens.Pairwise fun a b => a.span.start < b.span.start := by
  intro block hblock
  have hinside := recordOf_tokens_inside filePath htabulated hspells hquoted hmarkup block hblock
  obtain ⟨t, ht, rfl⟩ := List.mem_map.1 hblock
  obtain ⟨n, literal, h⟩ := templateOf_of_mem ht
  refine (tokens_in_order hmarkup hleaf hmarks (h.divided hspells hquoted)).imp_of_mem ?_
  rintro token token' htoken - ⟨a, b, a', b', hstands, hstands', hle⟩
  have hstop : token.span.stop ≤ token'.span.start := by
    rw [hstands.span_eq, hstands'.span_eq]
    exact positionAt_le htabulated.tabulates hstands.holds.isBoundary.2
      hstands'.holds.isBoundary.1 hle
  exact (hinside token htoken).2.trans_le hstop

end Record

/-- **When the tag names of a record are in order**: exactly when no tag name of a
template stands behind one of a template within it. Scripts and markup may be read with
any parsers whose trees are made of the text: every template literal begins and ends
with a quote and has calls in its substitutions only, there are no calls in the tags of
markup templates, and there is nothing below the names of tags, blanks and punctuation. -/
theorem tokens_sorted_iff {parse? : List Char → Option (Syntax.Tree Script.Kind)}
    {parse : List Char → Syntax.Tree Markup.Kind}
    (hscript : ∀ cs tree, parse? cs = some tree →
      tree.Spells cs ∧ Quoted tree ∧ CallsInSubstitutions tree ∧ PlainTags tree)
    (hmarkup : ∀ cs, (parse cs).Spells cs ∧ Markup.LeafNames (parse cs)
      ∧ Markup.LeafMarks (parse cs))
    (uri : Uri) (version : Int) (text : String) {r : Record}
    (h : (extractBy parse? (Document.ofText uri version text) (Markup.tokenizeBy parse)).1
      = .ok r) :
    (r.tokens.Pairwise fun a b => a.span.start < b.span.start)
      ↔ r.templates.Pairwise fun outer inner => inner.span.Inside outer.span →
          ∀ a ∈ outer.tokens, ∀ b ∈ inner.tokens, a.span.start < b.span.start := by
  have htabulated := Document.isTabulated_ofText uri version text
  obtain ⟨filePath, tree, hparse, rfl⟩ := of_extractBy h
  obtain ⟨hspells, hquoted, hcalls, htags⟩ := hscript _ tree hparse
  have hinside := recordOf_tokens_inside filePath htabulated hspells hquoted fun cs => (hmarkup cs).1
  have hordered := recordOf_tokens_in_order filePath htabulated hspells hquoted
    (fun cs => (hmarkup cs).1) (fun cs => (hmarkup cs).2.1) fun cs => (hmarkup cs).2.2
  rw [Record.tokens, List.pairwise_flatMap]
  constructor
  · rintro ⟨-, hbetween⟩
    refine hbetween.imp ?_
    intro outer inner hlt _
    exact hlt
  · intro hnested
    refine ⟨hordered, ?_⟩
    refine ((recordOf_templates_follow filePath htabulated hspells hquoted hcalls htags).and
      hnested).imp_of_mem ?_
    rintro outer inner houter hinner ⟨hfollows, hwithin⟩
    rcases hfollows with hbehind | hin
    · -- one behind the other, with all their tag names
      intro a ha b hb
      obtain ⟨⟨-, hstop⟩, hlt⟩ := hinside outer houter a ha
      obtain ⟨⟨hstart, -⟩, -⟩ := hinside inner hinner b hb
      exact hlt.trans (hstop.trans_le hbehind) |>.trans hstart
    · exact hwithin hin

namespace Sample

theorem tags_script : PlainTags script := by
  have hcalls : ∀ n ∈ Node.preorder ⟨0, script⟩, n.kind = .construct .call →
      ∀ c ∈ n.children.dropLast, ∀ m ∈ c.preorder, m.kind ≠ .construct .call := by
    simp [script, Syntax.Tree.branch, Node.preorder, Node.preorderOf, Node.kind,
      Syntax.Tree.kind, Node.children, Syntax.Tree.children, Node.placeFrom]
  intro n hn hsome
  obtain ⟨t, ht⟩ := Option.isSome_iff_exists.1 hsome
  obtain ⟨literal, h⟩ := templateOf_templateAt? hn ht
  exact hcalls n hn h.isCall

theorem marks_parse (cs : List Char) : Markup.LeafMarks (parse cs) := by
  unfold parse Markup.LeafMarks
  split
  · simp [outer, Syntax.Tree.branch, Node.preorder, Node.preorderOf, Node.kind, Syntax.Tree.kind,
      Node.children, Syntax.Tree.children, Node.placeFrom, Markup.Kind.isNamed]
  split
  · simp [inner, Syntax.Tree.branch, Node.preorder, Node.preorderOf, Node.kind, Syntax.Tree.kind,
      Node.children, Syntax.Tree.children, Node.placeFrom, Markup.Kind.isNamed]
  · simp [Node.preorder, Node.preorderOf, Node.kind, Syntax.Tree.kind, Markup.Kind.isNamed]

/-- The tag of the inner template stands before the end tag of the outer one. -/
theorem inner_before_end : (document.spanOf 65 68).start < (document.spanOf 74 77).start := by
  have hboundary (n : Nat) : IsBoundary document.text.toList (bytes (script.text.take n)) := by
    rw [document, Document.ofText, String.toList_ofList]
    exact ⟨_, List.take_prefix n _, rfl⟩
  have hinner : bytes (script.text.take 64) = 65 := by cbv
  have hend : bytes (script.text.take 73) = 74 := by cbv
  exact positionAt_lt (Document.isTabulated_ofText uri 1 _).tabulates (hinner ▸ hboundary 64)
    (hend ▸ hboundary 73) (by decide)

theorem unsorted_document :
    ¬ (recordOf document parse (.ofText "/a.js") script).tokens.Pairwise fun a b =>
      a.span.start < b.span.start := by
  rw [tokens_document]
  intro hsorted
  have hlt := List.rel_of_pairwise_cons (List.pairwise_cons.1 hsorted).2 List.mem_cons_self
  exact hlt.asymm inner_before_end

end Sample

/-- The end tag of the outer template is listed before the tag of the inner one, which
stands before it. -/
theorem sample_tokens_unsorted :
    ∃ r, (extractBy Sample.parse? Sample.document (Markup.tokenizeBy Sample.parse)).1 = .ok r
      ∧ r.tokens.map Token.tagName = ["a-b", "a-b", "c-d"]
      ∧ ¬ r.tokens.Pairwise fun a b => a.span.start < b.span.start := by
  exact ⟨_, Sample.extract_document, Sample.names_document, Sample.unsorted_document⟩

/-- A tag name of the outer template stands behind one of the inner template. -/
theorem sample_tokens_behind_nested :
    ∃ r, (extractBy Sample.parse? Sample.document (Markup.tokenizeBy Sample.parse)).1 = .ok r
      ∧ ¬ r.templates.Pairwise fun outer inner => inner.span.Inside outer.span →
          ∀ a ∈ outer.tokens, ∀ b ∈ inner.tokens, a.span.start < b.span.start := by
  refine ⟨_, Sample.extract_document, fun hnested => Sample.unsorted_document ?_⟩
  refine (tokens_sorted_iff ?_ (fun cs => ⟨Sample.spells_parse cs, Sample.leaf_parse cs,
    Sample.marks_parse cs⟩) _ _ _ Sample.extract_document).2 hnested
  intro cs tree h
  obtain ⟨rfl, hspells⟩ := Sample.parse?_eq_some h
  exact ⟨hspells, Sample.quoted_script, Sample.calls_script, Sample.tags_script⟩

end ElementLens
