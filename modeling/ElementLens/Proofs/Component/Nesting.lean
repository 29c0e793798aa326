/-
Templates are nested, and custom tag names lie apart.

A template in another one stands in one of its substitutions. The tag names of
the outer template stand in its segments, so they are apart from all that the
inner template contains. In preorder the outer template comes first:

* **`templates_nested`** — two templates of a script;
* **`tokens_of_templates_apart`** — the tag names of two templates;
* **`tokenAt?_eq_some_iff`** — looking up the tag name at a position;
* **`records_nested`** — the templates and tag names of a record.
-/
import ElementLens.Navigation.Link
import ElementLens.Proofs.Component.Fidelity
import ElementLens.Proofs.Text.Order
import Mathlib.Data.List.Pairwise

namespace ElementLens

open Syntax Text Template

/-- In a template literal there are calls in substitutions only. -/
def CallsInSubstitutions (t : Syntax.Tree Script.Kind) : Prop :=
  ∀ n ∈ Node.preorder ⟨0, t⟩, n.kind = .construct .template → ∀ c ∈ n.children,
    (∃ m ∈ c.preorder, m.kind = .construct .call) → c.kind = .construct .substitution

/-- Two spans do not overlap. -/
def Span.Apart (s t : Span) : Prop := s.stop ≤ t.start ∨ t.stop ≤ s.start

/-- A span lies strictly inside another one. -/
def Span.Inside (s t : Span) : Prop := t.start < s.start ∧ s.stop < t.stop

/-- A template lies in another one, apart from all of its segments. -/
structure Template.Literal.Surrounds (t t' : Literal) : Prop where
  start_lt : t.start < t'.start
  stop_lt : t'.stop < t.stop
  apart : ∀ s ∈ t.segments, s.stop ≤ t'.start ∨ t'.stop ≤ s.start

/-! ### Templates -/

section Script

variable {tree : Syntax.Tree Script.Kind} {cs : List Char} {n n' literal literal' : ScriptNode}
  {t t' : Literal}

namespace TemplateOf

/-- A template lies within its call. -/
theorem bounds (h : TemplateOf tree n literal t) (hspells : tree.Spells cs) :
    n.start ≤ t.start ∧ t.stop ≤ n.stop := by
  rw [h.eq]
  exact Node.bounds_of_child (Node.measured_of_mem_preorder hspells.measured h.mem) h.literal_mem.1

/-- There is room for the two quotes of a template. -/
theorem quotes (h : TemplateOf tree n literal t) (hspells : tree.Spells cs)
    (hquoted : Quoted tree) : t.start + 2 ≤ t.stop := by
  obtain ⟨opening, closing, -, -, hclose, hadjoins⟩ :=
    adjoins_inside hspells hquoted h.literal_mem.2 h.isLiteral
  have := hadjoins.le
  rw [h.eq]
  show literal.start + 2 ≤ literal.stop
  omega

/-- Below the literal of a template other templates lie in its
substitutions. -/
theorem surrounds (h : TemplateOf tree n literal t) (h' : TemplateOf tree n' literal' t')
    (hspells : tree.Spells cs) (hquoted : Quoted tree) (hcalls : CallsInSubstitutions tree)
    (hbelow : n' ∈ literal.preorder) : t.Surrounds t' := by
  have hmem := h.literal_mem.2
  have hmeasured := Node.measured_of_mem_preorder hspells.measured hmem
  obtain ⟨opening, closing, hchildren, hopen, hclose, hadjoins⟩ :=
    adjoins_inside hspells hquoted hmem h.isLiteral
  have hdivided := h.divided hspells hquoted
  have hbounds' := h'.bounds hspells
  have hquotes' := h'.quotes hspells hquoted
  rw [Node.preorder_eq] at hbelow
  rcases List.mem_cons.1 hbelow with rfl | hbelow
  · have := h'.isCall.symm.trans h.isLiteral
    simp at this
  obtain ⟨c, hc, hn'⟩ := List.mem_flatMap.1 hbelow
  have hsubstitution : c.kind = .construct .substitution :=
    hcalls literal hmem h.isLiteral c hc ⟨n', hn', h'.isCall⟩
  have hin := Node.bounds_of_mem_preorder (Node.measured_child hmeasured hc) hn'
  have hstart : t.start = literal.start := by rw [h.eq]
  have hstop : t.stop = literal.stop := by rw [h.eq]
  -- a quote is too short to hold a template
  have hinside : c ∈ inside literal := by
    have hwhole := Node.bounds_of_child hmeasured hc
    rw [hchildren, List.mem_cons, List.mem_append, List.mem_singleton] at hc
    rcases hc with rfl | hc | rfl
    · omega
    · exact hc
    · omega
  obtain ⟨hleft, hright⟩ := hadjoins.bounds c hinside
  refine ⟨by omega, by omega, fun s hs => ?_⟩
  rcases hdivided.apart s hs c hinside hsubstitution with hbefore | hbehind
  · exact .inl (by omega)
  · exact .inr (by omega)

end TemplateOf

/-- Of two templates in preorder the second one comes behind the first one or within it,
unless its call stands in the tag of the first one. -/
theorem TemplateOf.placed (h : TemplateOf tree n literal t) (h' : TemplateOf tree n' literal' t')
    (hspells : tree.Spells cs) (hquoted : Quoted tree) (hcalls : CallsInSubstitutions tree)
    (hpair : n.stop ≤ n'.start ∨ ∃ c ∈ Node.children n, n' ∈ c.preorder) :
    t.stop ≤ t'.start ∨ t.Surrounds t'
      ∨ ∃ c ∈ (Node.children n).dropLast, n' ∈ c.preorder := by
  have hbounds := h.bounds hspells
  have hbounds' := h'.bounds hspells
  rcases hpair with hbehind | ⟨c, hc, hbelow⟩
  · exact .inl (by omega)
  obtain ⟨front, hchildren⟩ := h.children
  rw [hchildren, List.mem_append, List.mem_singleton] at hc
  rcases hc with hfront | rfl
  · exact .inr (.inr ⟨c, by rwa [hchildren, List.dropLast_concat], hbelow⟩)
  · exact .inr (.inl (h.surrounds h' hspells hquoted hcalls hbelow))

/-- Of two templates in preorder the first one surrounds the second, or they lie
apart. -/
theorem templates_nested (hspells : tree.Spells cs) (hquoted : Quoted tree)
    (hcalls : CallsInSubstitutions tree) :
    ((Node.preorder ⟨0, tree⟩).filterMap templateAt?).Pairwise fun t t' =>
      t.stop ≤ t'.start ∨ t'.stop ≤ t.start ∨ t.Surrounds t' := by
  rw [List.pairwise_filterMap]
  refine (Node.pairwise_preorder hspells.measured).imp_of_mem ?_
  intro n n' hn hn' hpair t ht t' ht'
  obtain ⟨literal, h⟩ := templateOf_templateAt? hn ht
  obtain ⟨literal', h'⟩ := templateOf_templateAt? hn' ht'
  rcases h.placed h' hspells hquoted hcalls hpair with hbehind | hsurrounds | ⟨c, hc, hbelow⟩
  · exact .inl hbehind
  · exact .inr (.inr hsurrounds)
  · -- the call stands in the tag, which comes before the literal
    obtain ⟨front, hchildren⟩ := h.children
    rw [hchildren, List.dropLast_concat] at hc
    have hmeasured := Node.measured_of_mem_preorder hspells.measured hn
    have hpairwise := (Node.adjoins_children hmeasured (by simp [hchildren])).pairwise
    rw [hchildren] at hpairwise
    have hbefore := (List.pairwise_append.1 hpairwise).2.2 c hc literal (by simp)
    have hin := Node.bounds_of_mem_preorder (Node.measured_child hmeasured
      (by simp [hchildren, hc])) hbelow
    have hbounds' := h'.bounds hspells
    have hstart : t.start = literal.start := by rw [h.eq]
    exact .inr (.inl (by omega))

end Script

/-! ### Tag names -/

section Tokens

variable {d : Document} {parse : List Char → Syntax.Tree Markup.Kind} {t t' : Literal}

theorem Token.StandsAt.apart {token token' : Token} {a b a' b' : Nat}
    (h : token.StandsAt d a b) (h' : token'.StandsAt d a' b') (htabulated : d.IsTabulated)
    (hapart : b ≤ a' ∨ b' ≤ a) : token.span.Apart token'.span := by
  obtain ⟨ha, hb⟩ := h.holds.isBoundary
  obtain ⟨ha', hb'⟩ := h'.holds.isBoundary
  rw [h.span_eq, h'.span_eq]
  rcases hapart with hle | hle
  · exact .inl (positionAt_le htabulated.tabulates hb ha' hle)
  · exact .inr (positionAt_le htabulated.tabulates hb' ha hle)

/-- The tag names of a template lie strictly inside it and are not empty. -/
theorem tokens_inside (htabulated : d.IsTabulated) (hspells : ∀ cs, (parse cs).Spells cs)
    {ns : List ScriptNode}
    (hdivided : Divided d.text.toList (t.start + 1) ns (t.stop - 1) t.segments)
    (hstart : IsBoundary d.text.toList t.start) (hstop : IsBoundary d.text.toList t.stop) :
    ∀ token ∈ tokensOf d parse t,
      token.span.Inside (d.spanOf t.start t.stop) ∧ token.span.start < token.span.stop := by
  intro token htoken
  obtain ⟨s, hs, a, b, hstands, hleft, hright⟩ := tokens_stand hspells hdivided token htoken
  obtain ⟨ha, hb⟩ := hstands.holds.isBoundary
  obtain ⟨hlo, hhi⟩ := hdivided.bounds s hs
  have hlt : a < b := by
    have hpos : bytes token.tagName.toList ≠ 0 := fun hzero =>
      List.ne_nil_of_mem hstands.custom (bytes_eq_zero hzero)
    have := hstands.holds.bytes_eq
    omega
  rw [hstands.span_eq]
  exact ⟨⟨positionAt_lt htabulated.tabulates hstart ha (by omega),
    positionAt_lt htabulated.tabulates hb hstop (by omega)⟩,
    positionAt_lt htabulated.tabulates ha hb hlt⟩

/-- The tag names of templates that lie apart, or one around the other, lie
apart. -/
theorem tokens_of_templates_apart (htabulated : d.IsTabulated)
    (hspells : ∀ cs, (parse cs).Spells cs) {ns ns' : List ScriptNode}
    (hdivided : Divided d.text.toList (t.start + 1) ns (t.stop - 1) t.segments)
    (hdivided' : Divided d.text.toList (t'.start + 1) ns' (t'.stop - 1) t'.segments)
    (hnested : t.stop ≤ t'.start ∨ t'.stop ≤ t.start ∨ t.Surrounds t') :
    ∀ token ∈ tokensOf d parse t, ∀ token' ∈ tokensOf d parse t',
      token.span.Apart token'.span := by
  intro token htoken token' htoken'
  obtain ⟨s, hs, a, b, hstands, hleft, hright⟩ := tokens_stand hspells hdivided token htoken
  obtain ⟨s', hs', a', b', hstands', hleft', hright'⟩ :=
    tokens_stand hspells hdivided' token' htoken'
  refine hstands.apart hstands' htabulated ?_
  have := hdivided.bounds s hs
  have := hdivided'.bounds s' hs'
  rcases hnested with hbefore | hbehind | hsurrounds
  · exact .inl (by omega)
  · exact .inr (by omega)
  · rcases hsurrounds.apart s hs with hbefore | hbehind
    · exact .inl (by omega)
    · exact .inr (by omega)

end Tokens

/-! ### Looking up positions -/

theorem Span.Apart.not_encloses {s t : Span} (h : s.Apart t) {p : Position}
    (hs : s.encloses p = true) : t.encloses p = false := by
  rw [Bool.eq_false_iff]
  intro ht
  rw [encloses_iff] at hs ht
  rcases h with hle | hle
  · exact absurd (hs.2.trans_le hle) ht.1.asymm
  · exact absurd (ht.2.trans_le hle) hs.1.asymm

theorem Span.Inside.encloses {s t : Span} (h : s.Inside t) {p : Position}
    (hs : s.encloses p = true) : t.encloses p = true := by
  rw [encloses_iff] at hs ⊢
  exact ⟨h.1.trans hs.1, hs.2.trans h.2⟩

/-- Leaving out the templates that are not around a position leaves out no tag
name around it. -/
theorem tokenAt?_eq_find? {templates : List TemplateBlock}
    (hinside : ∀ block ∈ templates, ∀ token ∈ block.tokens, token.span.Inside block.span)
    (p : Position) :
    tokenAt? templates p
      = (templates.flatMap TemplateBlock.tokens).find? fun token => token.span.encloses p := by
  unfold tokenAt?
  induction templates with
  | nil => rfl
  | cons block templates ih =>
    rw [List.flatMap_cons, List.find?_append, ← ih fun b hb => hinside b (List.mem_cons_of_mem _ hb)]
    cases hblock : block.span.encloses p with
    | true => rw [List.filter_cons, if_pos hblock, List.flatMap_cons, List.find?_append]
    | false =>
      have hnone : block.tokens.find? (fun token => token.span.encloses p) = none := by
        rw [List.find?_eq_none]
        intro token htoken hencloses
        have := (hinside block List.mem_cons_self token htoken).encloses hencloses
        rw [hblock] at this
        exact absurd this (by decide)
      rw [List.filter_cons, if_neg (by simp [hblock]), hnone, Option.none_or]

/-- The tag name at a position is the only one around it. -/
theorem tokenAt?_eq_some_iff {templates : List TemplateBlock}
    (hinside : ∀ block ∈ templates, ∀ token ∈ block.tokens, token.span.Inside block.span)
    (hapart : (templates.flatMap TemplateBlock.tokens).Pairwise fun a b => a.span.Apart b.span)
    (p : Position) (token : Token) :
    tokenAt? templates p = some token
      ↔ token ∈ templates.flatMap TemplateBlock.tokens ∧ token.span.encloses p = true
        ∧ ∀ other ∈ templates.flatMap TemplateBlock.tokens,
            other.span.encloses p = true → other = token := by
  rw [tokenAt?_eq_find? hinside]
  constructor
  · intro hfind
    have hmem := List.mem_of_find?_eq_some hfind
    have hencloses := List.find?_some hfind
    refine ⟨hmem, hencloses, fun other hother hp => ?_⟩
    by_contra hne
    have hsymm : Std.Symm fun a b : Token => a.span.Apart b.span := ⟨fun _ _ => Or.symm⟩
    have := (hapart.forall hmem hother (Ne.symm hne)).not_encloses hencloses
    rw [hp] at this
    exact absurd this (by decide)
  · rintro ⟨hmem, hencloses, hunique⟩
    cases hfind : (templates.flatMap TemplateBlock.tokens).find?
        fun token => token.span.encloses p with
    | none => exact absurd hencloses (List.find?_eq_none.1 hfind token hmem)
    | some other =>
      have hother := List.find?_some hfind
      rw [hunique other (List.mem_of_find?_eq_some hfind) hother]

/-! ### Records -/

section Record

variable {d : Document} {parse : List Char → Syntax.Tree Markup.Kind} {tree : Syntax.Tree Script.Kind}
  (filePath : Path)

theorem TemplateOf.isBoundary {cs : List Char} {n literal : ScriptNode} {t : Literal}
    (h : TemplateOf tree n literal t) (hspells : tree.Spells cs) :
    IsBoundary cs t.start ∧ IsBoundary cs t.stop := by
  rw [h.eq]
  exact (hspells.inPlace.of_mem_preorder h.literal_mem.2).holds.isBoundary

/-- The blocks of a record are not empty. -/
theorem recordOf_templates_lt (htabulated : d.IsTabulated) (hspells : tree.Spells d.text.toList)
    (hquoted : Quoted tree) :
    ∀ block ∈ (recordOf d parse filePath tree).templates, block.span.start < block.span.stop := by
  intro block hblock
  obtain ⟨t, ht, rfl⟩ := List.mem_map.1 hblock
  obtain ⟨n, literal, h⟩ := templateOf_of_mem ht
  obtain ⟨hstart, hstop⟩ := h.isBoundary hspells
  have := h.quotes hspells hquoted
  exact positionAt_lt htabulated.tabulates hstart hstop (by omega)

theorem recordOf_tokens_inside (htabulated : d.IsTabulated) (hspells : tree.Spells d.text.toList)
    (hquoted : Quoted tree) (hmarkup : ∀ cs, (parse cs).Spells cs) :
    ∀ block ∈ (recordOf d parse filePath tree).templates, ∀ token ∈ block.tokens,
      token.span.Inside block.span ∧ token.span.start < token.span.stop := by
  intro block hblock
  obtain ⟨t, ht, rfl⟩ := List.mem_map.1 hblock
  obtain ⟨n, literal, h⟩ := templateOf_of_mem ht
  obtain ⟨hstart, hstop⟩ := h.isBoundary hspells
  exact tokens_inside htabulated hmarkup (h.divided hspells hquoted) hstart hstop

theorem recordOf_templates_nested (htabulated : d.IsTabulated)
    (hspells : tree.Spells d.text.toList) (hquoted : Quoted tree)
    (hcalls : CallsInSubstitutions tree) :
    (recordOf d parse filePath tree).templates.Pairwise fun a b =>
      a.span.Apart b.span ∨ b.span.Inside a.span := by
  show (List.map _ _).Pairwise _
  rw [List.pairwise_map]
  refine (templates_nested hspells hquoted hcalls).imp_of_mem ?_
  intro t t' ht ht' hnested
  obtain ⟨n, literal, h⟩ := templateOf_of_mem ht
  obtain ⟨n', literal', h'⟩ := templateOf_of_mem ht'
  obtain ⟨hstart, hstop⟩ := h.isBoundary hspells
  obtain ⟨hstart', hstop'⟩ := h'.isBoundary hspells
  rcases hnested with hbefore | hbehind | hsurrounds
  · exact .inl (.inl (positionAt_le htabulated.tabulates hstop hstart' hbefore))
  · exact .inl (.inr (positionAt_le htabulated.tabulates hstop' hstart hbehind))
  · exact .inr ⟨positionAt_lt htabulated.tabulates hstart hstart' hsurrounds.start_lt,
      positionAt_lt htabulated.tabulates hstop' hstop hsurrounds.stop_lt⟩

theorem recordOf_tokens_apart (htabulated : d.IsTabulated) (hspells : tree.Spells d.text.toList)
    (hquoted : Quoted tree) (hcalls : CallsInSubstitutions tree)
    (hmarkup : ∀ cs, (parse cs).Spells cs) (hleaf : ∀ cs, Markup.LeafNames (parse cs)) :
    (recordOf d parse filePath tree).tokens.Pairwise fun a b => a.span.Apart b.span := by
  show ((List.map _ _).flatMap _).Pairwise _
  rw [List.pairwise_flatMap, List.pairwise_map]
  constructor
  · -- within one template
    intro block hblock
    obtain ⟨t, ht, rfl⟩ := List.mem_map.1 hblock
    obtain ⟨n, literal, h⟩ := templateOf_of_mem ht
    refine (tokens_apart hmarkup hleaf (h.divided hspells hquoted)).imp ?_
    rintro token token' ⟨a, b, a', b', hstands, hstands', hapart⟩
    exact hstands.apart hstands' htabulated hapart
  · -- in two templates
    refine (templates_nested hspells hquoted hcalls).imp_of_mem ?_
    intro t t' ht ht' hnested
    obtain ⟨n, literal, h⟩ := templateOf_of_mem ht
    obtain ⟨n', literal', h'⟩ := templateOf_of_mem ht'
    exact tokens_of_templates_apart htabulated hmarkup (h.divided hspells hquoted)
      (h'.divided hspells hquoted) hnested

end Record

/-- **Templates are nested, and tag names lie apart.** Scripts and markup may be
read with any parsers whose trees are made of the text: every template literal
begins and ends with a quote and has calls in its substitutions only, and there
is nothing below the names of tags. -/
theorem records_nested {parse? : List Char → Option (Syntax.Tree Script.Kind)}
    {parse : List Char → Syntax.Tree Markup.Kind}
    (hscript : ∀ cs tree, parse? cs = some tree →
      tree.Spells cs ∧ Quoted tree ∧ CallsInSubstitutions tree)
    (hmarkup : ∀ cs, (parse cs).Spells cs ∧ Markup.LeafNames (parse cs))
    (uri : Uri) (version : Int) (text : String) {r : Record}
    (h : (extractBy parse? (Document.ofText uri version text) (Markup.tokenizeBy parse)).1
      = .ok r) :
    (r.tokens.Pairwise fun a b => a.span.Apart b.span)
      ∧ (∀ block ∈ r.templates, ∀ token ∈ block.tokens,
          token.span.Inside block.span ∧ token.span.start < token.span.stop)
      ∧ (∀ block ∈ r.templates, block.span.start < block.span.stop)
      ∧ (r.templates.Pairwise fun a b => a.span.Apart b.span ∨ b.span.Inside a.span)
      ∧ ∀ p token, tokenAt? r.templates p = some token
          ↔ token ∈ r.tokens ∧ token.span.encloses p = true
            ∧ ∀ other ∈ r.tokens, other.span.encloses p = true → other = token := by
  have htabulated := Document.isTabulated_ofText uri version text
  obtain ⟨filePath, tree, hparse, rfl⟩ := of_extractBy h
  obtain ⟨hspells, hquoted, hcalls⟩ := hscript _ tree hparse
  have hinside := recordOf_tokens_inside filePath htabulated hspells hquoted fun cs => (hmarkup cs).1
  have hapart := recordOf_tokens_apart filePath htabulated hspells hquoted hcalls
    (fun cs => (hmarkup cs).1) fun cs => (hmarkup cs).2
  exact ⟨hapart, hinside, recordOf_templates_lt filePath htabulated hspells hquoted,
    recordOf_templates_nested filePath htabulated hspells hquoted hcalls,
    tokenAt?_eq_some_iff (fun block hblock token htoken => (hinside block hblock token htoken).1)
      hapart⟩

namespace Sample

theorem calls_script : CallsInSubstitutions script := by
  simp [CallsInSubstitutions, script, Syntax.Tree.branch, Node.preorder, Node.preorderOf, Node.kind,
    Syntax.Tree.kind, Node.children, Syntax.Tree.children, Node.placeFrom]

theorem leaf_parse (cs : List Char) : Markup.LeafNames (parse cs) := by
  unfold parse Markup.LeafNames Markup.IsTagName
  split
  · simp [outer, Syntax.Tree.branch, Node.preorder, Node.preorderOf, Node.kind, Syntax.Tree.kind,
      Node.children, Syntax.Tree.children, Node.placeFrom]
  split
  · simp [inner, Syntax.Tree.branch, Node.preorder, Node.preorderOf, Node.kind, Syntax.Tree.kind,
      Node.children, Syntax.Tree.children, Node.placeFrom]
  · simp [Node.preorder, Node.preorderOf, Node.kind, Syntax.Tree.kind]

end Sample

theorem sample_records_nested :
    ∃ r, (extractBy Sample.parse? Sample.document (Markup.tokenizeBy Sample.parse)).1 = .ok r
      ∧ r.tokens.map Token.tagName = ["a-b", "a-b", "c-d"]
      ∧ (r.tokens.Pairwise fun a b => a.span.Apart b.span)
      ∧ (∀ block ∈ r.templates, ∀ token ∈ block.tokens,
          token.span.Inside block.span ∧ token.span.start < token.span.stop)
      ∧ (∀ block ∈ r.templates, block.span.start < block.span.stop)
      ∧ (r.templates.Pairwise fun a b => a.span.Apart b.span ∨ b.span.Inside a.span)
      ∧ ∀ p token, tokenAt? r.templates p = some token
          ↔ token ∈ r.tokens ∧ token.span.encloses p = true
            ∧ ∀ other ∈ r.tokens, other.span.encloses p = true → other = token := by
  refine ⟨_, Sample.extract_document, Sample.names_document, ?_⟩
  refine records_nested ?_ (fun cs => ⟨Sample.spells_parse cs, Sample.leaf_parse cs⟩)
    _ _ _ Sample.extract_document
  intro cs tree h
  obtain ⟨rfl, hspells⟩ := Sample.parse?_eq_some h
  exact ⟨hspells, Sample.quoted_script, Sample.calls_script⟩

end ElementLens
