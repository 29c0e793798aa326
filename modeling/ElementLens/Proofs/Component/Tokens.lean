/-
Custom tag names in a script.

A name is reported for a segment of a template, and the segment stands in the
script. So the custom tag names of a template stand in the script too, each
within one segment:

* **`Token.StandsAt`** — a tag name and the offsets its span was made of;
* **`tokens_stand`** — every tag name of a template stands somewhere;
* **`tokens_plain`** — and has no line ends in it;
* **`tokens_apart`** — no two of them overlap;
* **`tokens_in_order`** — they are listed in the order in which they stand.
-/
import ElementLens.Proofs.Component.Contents
import ElementLens.Proofs.Markup.Names
import ElementLens.Proofs.Template.Segments

namespace ElementLens

open Syntax Text Template

/-- The span of a token is that of its name at the given offsets. -/
structure Token.StandsAt (d : Document) (token : Token) (start stop : Nat) : Prop where
  span_eq : token.span = d.spanOf start stop
  holds : Holds d.text.toList start stop token.tagName.toList
  custom : '-' ∈ token.tagName.toList

theorem token?_eq_some {d : Document} {segments : List Segment} {e : Markup.Event} {token : Token}
    (h : Extraction.token? d segments e = some token) :
    ∃ s, segments[e.segment]? = some s ∧ e.kind ≠ .attributeName ∧ '-' ∈ e.text.toList
      ∧ token.span = d.spanOf (s.start + e.start) (s.start + e.stop)
      ∧ token.tagName = e.text := by
  obtain ⟨kind, hkind, h⟩ := Option.bind_eq_some_iff.1 h
  obtain ⟨s, hs, h⟩ := Option.bind_eq_some_iff.1 h
  split at h
  · rename_i hhyphen
    obtain rfl := Option.some.inj h
    refine ⟨s, hs, ?_, by simpa using hhyphen, rfl, rfl⟩
    intro hattribute
    rw [hattribute] at hkind
    exact absurd hkind (by simp [Extraction.tokenKind?])
  · exact absurd h (by simp)

/-- The template of a call, which is a node of a script. The literal is the last
node below the call. -/
structure TemplateOf (tree : Syntax.Tree Script.Kind) (n literal : ScriptNode) (t : Literal) : Prop where
  mem : n ∈ Node.preorder ⟨0, tree⟩
  isCall : n.kind = .construct .call
  children : ∃ front, Node.children n = front ++ [literal]
  isLiteral : literal.kind = .construct .template
  eq : t = ⟨literal.start, literal.stop, divide (literal.start + 1) [] [] (inside literal)⟩

theorem templateOf_templateAt? {tree : Syntax.Tree Script.Kind} {n : ScriptNode} {t : Literal}
    (hn : n ∈ Node.preorder ⟨0, tree⟩) (h : templateAt? n = some t) :
    ∃ literal, TemplateOf tree n literal t := by
  unfold templateAt? at h
  split at h
  · rename_i hcall
    obtain ⟨front, literal, hchildren, hkind, heq⟩ := ofCall?_eq_some h
    exact ⟨literal, hn, hcall, ⟨front, hchildren⟩, hkind, heq⟩
  · exact absurd h (by simp)

/-- Every template of a script belongs to a node. -/
theorem templateOf_of_mem {tree : Syntax.Tree Script.Kind} {t : Literal}
    (ht : t ∈ (Node.preorder ⟨0, tree⟩).filterMap templateAt?) :
    ∃ n literal, TemplateOf tree n literal t := by
  obtain ⟨n, hn, hat⟩ := List.mem_filterMap.1 ht
  exact ⟨n, templateOf_templateAt? hn hat⟩

namespace TemplateOf

variable {tree : Syntax.Tree Script.Kind} {n literal : ScriptNode} {t : Literal} {cs : List Char}

theorem literal_mem (h : TemplateOf tree n literal t) :
    literal ∈ Node.children n ∧ literal ∈ Node.preorder ⟨0, tree⟩ := by
  obtain ⟨front, hchildren⟩ := h.children
  have hchild : literal ∈ Node.children n := by simp [hchildren]
  exact ⟨hchild, Node.mem_preorder_trans h.mem
    (Node.mem_preorder_of_child hchild literal.self_mem_preorder)⟩

theorem divided (h : TemplateOf tree n literal t) (hspells : tree.Spells cs)
    (hquoted : Quoted tree) : Divided cs (t.start + 1) (inside literal) (t.stop - 1) t.segments := by
  rw [h.eq]
  exact divided_inside hspells hquoted h.literal_mem.2 h.isLiteral

end TemplateOf

section Template

variable {d : Document} {parse : List Char → Syntax.Tree Markup.Kind} {t : Literal}
  {start stop : Nat} {ns : List ScriptNode}

/-- An event of a template stands in its segment, and the segment in the
script. -/
theorem event_stands (hspells : ∀ cs, (parse cs).Spells cs)
    (hdivided : Divided d.text.toList start ns stop t.segments) {e : Markup.Event}
    (he : e ∈ (Markup.eventsBy parse (t.segments.map (·.raw))).1) {s : Segment}
    (hs : t.segments[e.segment]? = some s) :
    Holds d.text.toList (s.start + e.start) (s.start + e.stop) e.text.toList
      ∧ s.start + e.stop ≤ s.stop := by
  obtain ⟨raw, hraw, hholds⟩ := Markup.events_hold (hspells _) e he
  rw [List.getElem?_map, hs] at hraw
  obtain rfl : s.raw = raw := Option.some.inj hraw
  refine ⟨(hdivided.holds s (List.mem_of_getElem? hs)).trans hholds, ?_⟩
  have hle := hholds.isBoundary.2.le_bytes
  rw [bytes_toList] at hle
  exact Nat.add_le_add_left hle s.start

/-- A custom tag name stands where its event does. -/
theorem stands_of_token? (hspells : ∀ cs, (parse cs).Spells cs)
    (hdivided : Divided d.text.toList start ns stop t.segments) {e : Markup.Event}
    (he : e ∈ (Markup.eventsBy parse (t.segments.map (·.raw))).1) {token : Token}
    (h : Extraction.token? d t.segments e = some token) :
    ∃ s, t.segments[e.segment]? = some s ∧ e.kind ≠ .attributeName
      ∧ token.StandsAt d (s.start + e.start) (s.start + e.stop) ∧ s.start + e.stop ≤ s.stop := by
  obtain ⟨s, hs, hkind, hcustom, hspan, hname⟩ := token?_eq_some h
  obtain ⟨hholds, hstop⟩ := event_stands hspells hdivided he hs
  exact ⟨s, hs, hkind, ⟨hspan, by rwa [hname], by rwa [hname]⟩, hstop⟩

/-- Every custom tag name of a template stands within one of its segments. -/
theorem tokens_stand (hspells : ∀ cs, (parse cs).Spells cs)
    (hdivided : Divided d.text.toList start ns stop t.segments) :
    ∀ token ∈ tokensOf d parse t, ∃ s ∈ t.segments, ∃ a b,
      token.StandsAt d a b ∧ s.start ≤ a ∧ b ≤ s.stop := by
  intro token htoken
  obtain ⟨e, he, h⟩ := List.mem_filterMap.1 htoken
  obtain ⟨s, hs, -, hstands, hstop⟩ := stands_of_token? hspells hdivided he h
  exact ⟨s, List.mem_of_getElem? hs, _, _, hstands, Nat.le_add_right _ _, hstop⟩

theorem tokens_plain (hplain : ∀ cs, Markup.PlainNames (parse cs)) :
    ∀ token ∈ tokensOf d parse t, IsPlain token.tagName.toList := by
  intro token htoken
  obtain ⟨e, he, h⟩ := List.mem_filterMap.1 htoken
  obtain ⟨s, -, hkind, -, -, hname⟩ := token?_eq_some h
  rw [hname]
  exact Markup.events_plain hplain e he hkind

/-- An earlier segment lies before a later one. -/
theorem segments_before (hdivided : Divided d.text.toList start ns stop t.segments) {i j : Nat}
    {s s' : Segment} (hs : t.segments[i]? = some s) (hs' : t.segments[j]? = some s')
    (hlt : i < j) : s.stop ≤ s'.start := by
  obtain ⟨hi, rfl⟩ := List.getElem?_eq_some_iff.1 hs
  obtain ⟨hj, rfl⟩ := List.getElem?_eq_some_iff.1 hs'
  exact List.pairwise_iff_getElem.1 hdivided.ordered i j hi hj hlt

/-- No two custom tag names of a template overlap. -/
theorem tokens_apart (hspells : ∀ cs, (parse cs).Spells cs)
    (hleaf : ∀ cs, Markup.LeafNames (parse cs))
    (hdivided : Divided d.text.toList start ns stop t.segments) :
    (tokensOf d parse t).Pairwise fun token token' => ∃ a b a' b',
      token.StandsAt d a b ∧ token'.StandsAt d a' b' ∧ (b ≤ a' ∨ b' ≤ a) := by
  rw [tokensOf, List.pairwise_filterMap]
  refine (Markup.events_apart (hspells _).measured (hleaf _)).imp_of_mem ?_
  intro e e' he he' hpair token htoken token' htoken'
  obtain ⟨s, hs, hkind, hstands, hstop⟩ := stands_of_token? hspells hdivided he htoken
  obtain ⟨s', hs', hkind', hstands', hstop'⟩ := stands_of_token? hspells hdivided he' htoken'
  refine ⟨_, _, _, _, hstands, hstands', ?_⟩
  rcases Nat.lt_trichotomy e.segment e'.segment with hlt | heq | hgt
  · have := segments_before hdivided hs hs' hlt
    omega
  · have := hpair hkind hkind' heq
    obtain rfl : s = s' := Option.some.inj (hs.symm.trans (heq ▸ hs'))
    omega
  · have := segments_before hdivided hs' hs hgt
    omega

/-- The custom tag names of a template are listed in the order in which they stand. -/
theorem tokens_in_order (hspells : ∀ cs, (parse cs).Spells cs)
    (hleaf : ∀ cs, Markup.LeafNames (parse cs)) (hmarks : ∀ cs, Markup.LeafMarks (parse cs))
    (hdivided : Divided d.text.toList start ns stop t.segments) :
    (tokensOf d parse t).Pairwise fun token token' => ∃ a b a' b',
      token.StandsAt d a b ∧ token'.StandsAt d a' b' ∧ b ≤ a' := by
  rw [tokensOf, List.pairwise_filterMap]
  refine (Markup.events_in_order (hspells _).measured (hleaf _) (hmarks _)).imp_of_mem ?_
  intro e e' he he' hpair token htoken token' htoken'
  obtain ⟨s, hs, hkind, hstands, hstop⟩ := stands_of_token? hspells hdivided he htoken
  obtain ⟨s', hs', hkind', hstands', hstop'⟩ := stands_of_token? hspells hdivided he' htoken'
  refine ⟨_, _, _, _, hstands, hstands', ?_⟩
  rcases hpair hkind hkind' with hlt | ⟨heq, hle⟩
  · have := segments_before hdivided hs hs' hlt
    omega
  · obtain rfl : s = s' := Option.some.inj (hs.symm.trans (heq ▸ hs'))
    omega

end Template

end ElementLens
