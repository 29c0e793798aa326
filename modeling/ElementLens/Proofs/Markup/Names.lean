/-
Names found in markup: where they stand.

The names are those of the nodes of a tree in preorder, up to the first fault.
A reported name stands with its text in the segment it is reported for. The
name of a tag is a node below the tag, so a name could only overlap another one
if tags were nested in names:

* **`nameAt?_eq_some_iff`** — the name of a node;
* **`eventsOf_fst`** — the reported names as a list;
* **`events_hold`** — the text of a reported name;
* **`events_apart`** — the names of tags in one segment do not overlap;
* **`events_in_order`** — the names of tags are reported in order.
-/
import ElementLens.Markup.Event
import ElementLens.Proofs.Markup.Pieces
import ElementLens.Proofs.Syntax.Places
import ElementLens.Proofs.Text.LineTable

namespace ElementLens.Markup

open Syntax Text

/-- A node is the name of a tag, stray end tags included. -/
def IsTagName (n : Node Kind) : Prop := n.kind = .tagName ∨ n.kind = .strayName

/-- There are no line ends in the names of tags. -/
def PlainNames (t : Syntax.Tree Kind) : Prop :=
  ∀ n ∈ Node.preorder ⟨0, t⟩, IsTagName n → IsPlain n.tree.text

/-- There are no nodes below the names of tags. -/
def LeafNames (t : Syntax.Tree Kind) : Prop :=
  ∀ n ∈ Node.preorder ⟨0, t⟩, IsTagName n → n.children = []

/-- There are no nodes below blanks and punctuation. -/
def LeafMarks (t : Syntax.Tree Kind) : Prop :=
  ∀ n ∈ Node.preorder ⟨0, t⟩, n.kind.isNamed = false → n.children = []

/-- What is reported for a node. -/
def eventAt? (layout : Layout) (n : Node Kind) : Option Event :=
  (nameAt? n).bind fun named =>
    (layout.relative? named.2.start named.2.stop).map fun range =>
      ⟨named.1, range.1, range.2.1, range.2.2, named.2.text⟩

theorem meet_fault (layout : Layout) (found : List Event) (n : Node Kind)
    (h : n.kind.isFault = true) : ∃ fault, meet layout found n = .error fault := by
  rw [meet, if_pos h]
  exact ⟨_, rfl⟩

theorem meet_name (layout : Layout) (found : List Event) (n : Node Kind)
    (h : n.kind.isFault = false) :
    meet layout found n = .ok ((eventAt? layout n).toList ++ found) := by
  rw [meet, if_neg (by simp [h]), eventAt?]
  cases hname : nameAt? n with
  | none => rfl
  | some named =>
    obtain ⟨kind, name⟩ := named
    cases hrange : layout.relative? name.start name.stop with
    | none => simp [hrange]
    | some range => simp [hrange]

/-- The names of the nodes before the first fault are reported in preorder. -/
theorem eventsOf_fst (layout : Layout) (tree : Syntax.Tree Kind) :
    (eventsOf layout tree).1
      = ((Node.preorder ⟨0, tree⟩).takeWhile fun n => !n.kind.isFault).filterMap
          (eventAt? layout) := by
  show (Node.walk (meet layout) [] ⟨0, tree⟩).1.reverse = _
  rw [Node.walk_eq_visitAll, Node.visitAll_fst (meet_fault layout) (meet_name layout),
    Node.foldl_found]
  rfl

/-- A node has another one as its name, or itself. The name of a tag is the first node
directly below it that says something by itself. -/
inductive NameOf : Node Kind → EventKind → Node Kind → Prop
  | startTag {n name : Node Kind} {before after : List (Node Kind)} :
    n.kind = .startTag ∨ n.kind = .selfClosingTag → n.children = before ++ name :: after →
    (∀ c ∈ before, c.kind.isNamed = false) → name.kind = .tagName → NameOf n .startTagName name
  | endTag {n name : Node Kind} {before after : List (Node Kind)} :
    n.kind = .endTag → n.children = before ++ name :: after →
    (∀ c ∈ before, c.kind.isNamed = false) → name.kind = .tagName → NameOf n .endTagName name
  | strayName {n : Node Kind} : n.kind = .strayName → NameOf n .endTagName n
  | attributeName {n : Node Kind} : n.kind = .attributeName → NameOf n .attributeName n

theorem tagName_eq_some_iff {n name : Node Kind} {k kind : EventKind} :
    ((firstNamed? n).filter fun c => c.kind == .tagName).map (k, ·) = some (kind, name)
      ↔ k = kind ∧ name.kind = .tagName ∧ ∃ before after, n.children = before ++ name :: after
        ∧ ∀ c ∈ before, c.kind.isNamed = false := by
  simp only [Option.map_eq_some_iff, Option.filter_eq_some_iff, Prod.mk.injEq, beq_iff_eq,
    firstNamed?, List.find?_eq_some_iff_append, Bool.not_eq_eq_eq_not, Bool.not_true]
  constructor
  · rintro ⟨c, ⟨⟨-, hbelow⟩, hkind⟩, rfl, rfl⟩
    exact ⟨rfl, hkind, hbelow⟩
  · rintro ⟨rfl, hkind, hbelow⟩
    exact ⟨name, ⟨⟨by rw [hkind]; rfl, hbelow⟩, hkind⟩, rfl, rfl⟩

theorem nameAt?_eq_some_iff {n name : Node Kind} {kind : EventKind} :
    nameAt? n = some (kind, name) ↔ NameOf n kind name := by
  constructor
  · intro h
    unfold nameAt? at h
    cases hn : n.kind <;> simp only [hn] at h
    case startTag =>
      obtain ⟨rfl, hkind, before, after, hchildren, hbefore⟩ := tagName_eq_some_iff.1 h
      exact .startTag (.inl hn) hchildren hbefore hkind
    case selfClosingTag =>
      obtain ⟨rfl, hkind, before, after, hchildren, hbefore⟩ := tagName_eq_some_iff.1 h
      exact .startTag (.inr hn) hchildren hbefore hkind
    case endTag =>
      obtain ⟨rfl, hkind, before, after, hchildren, hbefore⟩ := tagName_eq_some_iff.1 h
      exact .endTag hn hchildren hbefore hkind
    case strayName =>
      obtain ⟨rfl, rfl⟩ := Prod.mk.inj (Option.some.inj h)
      exact .strayName hn
    case attributeName =>
      obtain ⟨rfl, rfl⟩ := Prod.mk.inj (Option.some.inj h)
      exact .attributeName hn
    all_goals exact absurd h (by simp)
  · intro h
    unfold nameAt?
    cases h with
    | startTag hn hchildren hbefore hkind =>
      rcases hn with hn | hn <;> simp only [hn] <;>
        exact tagName_eq_some_iff.2 ⟨rfl, hkind, _, _, hchildren, hbefore⟩
    | endTag hn hchildren hbefore hkind =>
      simp only [hn]
      exact tagName_eq_some_iff.2 ⟨rfl, hkind, _, _, hchildren, hbefore⟩
    | strayName hn => simp only [hn]
    | attributeName hn => simp only [hn]

theorem nameAt?_cases {n name : Node Kind} {kind : EventKind}
    (h : nameAt? n = some (kind, name)) :
    (∃ before after, n.children = before ++ name :: after
        ∧ (∀ c ∈ before, c.kind.isNamed = false) ∧ name.kind = .tagName ∧ ¬ IsTagName n)
      ∨ (name = n ∧ (n.kind = .strayName ∨ kind = .attributeName)) := by
  cases nameAt?_eq_some_iff.1 h with
  | startTag hn hchildren hbefore hkind =>
    refine .inl ⟨_, _, hchildren, hbefore, hkind, ?_⟩
    rcases hn with hn | hn <;> simp [IsTagName, hn]
  | endTag hn hchildren hbefore hkind =>
    exact .inl ⟨_, _, hchildren, hbefore, hkind, by simp [IsTagName, hn]⟩
  | strayName hn => exact .inr ⟨rfl, .inl hn⟩
  | attributeName hn => exact .inr ⟨rfl, .inr rfl⟩

theorem nameAt?_eq_some {n name : Node Kind} {kind : EventKind}
    (h : nameAt? n = some (kind, name)) :
    (name ∈ n.children ∧ name.kind = .tagName ∧ ¬ IsTagName n)
      ∨ (name = n ∧ (n.kind = .strayName ∨ kind = .attributeName)) := by
  refine (nameAt?_cases h).imp_left ?_
  rintro ⟨before, after, hchildren, -, hkind, hnot⟩
  exact ⟨by simp [hchildren], hkind, hnot⟩

theorem nameAt?_mem {n name : Node Kind} {kind : EventKind} (h : nameAt? n = some (kind, name)) :
    name ∈ n.preorder := by
  rcases nameAt?_eq_some h with ⟨hmem, -⟩ | ⟨rfl, -⟩
  · exact Node.mem_preorder_of_child hmem name.self_mem_preorder
  · exact name.self_mem_preorder

theorem nameAt?_isTagName {n name : Node Kind} {kind : EventKind}
    (h : nameAt? n = some (kind, name)) (hkind : kind ≠ .attributeName) : IsTagName name := by
  rcases nameAt?_eq_some h with ⟨-, hname, -⟩ | ⟨rfl, hstray | hattribute⟩
  · exact .inl hname
  · exact .inr hstray
  · exact absurd hattribute hkind

/-- Blanks and punctuation have no name. -/
theorem nameAt?_isNamed {n name : Node Kind} {kind : EventKind}
    (h : nameAt? n = some (kind, name)) : n.kind.isNamed = true := by
  unfold nameAt? at h
  cases hn : n.kind <;> simp only [hn] at h <;> first | rfl | exact absurd h (by simp)

/-- The name of a tag has no name itself. -/
theorem nameAt?_tagName {n : Node Kind} (h : n.kind = .tagName) : nameAt? n = none := by
  unfold nameAt?
  simp only [h]

section Pairs

variable {n n' name name' : Node Kind} {kind kind' : EventKind}

/-- The name of a node lies before that of a node which comes after it in preorder,
unless that one is below the blanks and the punctuation before the name. -/
theorem nameAt?_behind (h : nameAt? n = some (kind, name)) (h' : nameAt? n' = some (kind', name'))
    (hmeasured : n.tree.Measured) (hmeasured' : n'.tree.Measured) (hleaf : name.children = [])
    (hpair : n.stop ≤ n'.start ∨ ∃ c ∈ n.children, n' ∈ c.preorder) :
    name.stop ≤ name'.start
      ∨ ∃ c ∈ n.children, c.kind.isNamed = false ∧ c.stop ≤ name.start ∧ n' ∈ c.preorder := by
  have hname := Node.bounds_of_mem_preorder hmeasured (nameAt?_mem h)
  have hname' := Node.bounds_of_mem_preorder hmeasured' (nameAt?_mem h')
  rcases hpair with hbehind | ⟨c, hc, hbelow⟩
  · exact .inl (by omega)
  rcases nameAt?_cases h with ⟨before, after, hchildren, hbefore, htag, -⟩ | ⟨rfl, -⟩
  · have hin := Node.bounds_of_mem_preorder (Node.measured_child hmeasured hc) hbelow
    have hpairwise := (Node.adjoins_children hmeasured (List.ne_nil_of_mem hc)).pairwise
    rw [hchildren, List.pairwise_append, List.pairwise_cons] at hpairwise
    obtain ⟨-, ⟨hafter, -⟩, hleft⟩ := hpairwise
    have hcase := hc
    rw [hchildren, List.mem_append, List.mem_cons] at hcase
    rcases hcase with hcbefore | rfl | hcafter
    · exact .inr ⟨c, hc, hbefore c hcbefore, hleft c hcbefore name List.mem_cons_self, hbelow⟩
    · -- there is nothing below a name, and a name does not have a name
      rw [Node.preorder_eq, hleaf, List.flatMap_nil, List.mem_singleton] at hbelow
      rw [hbelow, nameAt?_tagName htag] at h'
      exact absurd h' (by simp)
    · have := hafter c hcafter
      exact .inl (by omega)
  · rw [hleaf] at hc
    exact absurd hc (by simp)

/-- The names of two nodes do not overlap: a node in another one lies before or
behind the name of that one. -/
theorem nameAt?_apart (h : nameAt? n = some (kind, name)) (h' : nameAt? n' = some (kind', name'))
    (hmeasured : n.tree.Measured) (hmeasured' : n'.tree.Measured) (hleaf : name.children = [])
    (hpair : n.stop ≤ n'.start ∨ ∃ c ∈ n.children, n' ∈ c.preorder) :
    name.stop ≤ name'.start ∨ name'.stop ≤ name.start := by
  refine (nameAt?_behind h h' hmeasured hmeasured' hleaf hpair).imp_right ?_
  rintro ⟨c, hc, -, hle, hbelow⟩
  have hin := Node.bounds_of_mem_preorder (Node.measured_child hmeasured hc) hbelow
  have hname' := Node.bounds_of_mem_preorder hmeasured' (nameAt?_mem h')
  omega

/-- Where there is nothing below blanks and punctuation, names come in the order of their
nodes. -/
theorem nameAt?_before (h : nameAt? n = some (kind, name)) (h' : nameAt? n' = some (kind', name'))
    (hmeasured : n.tree.Measured) (hmeasured' : n'.tree.Measured) (hleaf : name.children = [])
    (hmarks : ∀ c ∈ n.children, c.kind.isNamed = false → c.children = [])
    (hpair : n.stop ≤ n'.start ∨ ∃ c ∈ n.children, n' ∈ c.preorder) :
    name.stop ≤ name'.start := by
  rcases nameAt?_behind h h' hmeasured hmeasured' hleaf hpair with
    hle | ⟨c, hc, hunnamed, -, hbelow⟩
  · exact hle
  rw [Node.preorder_eq, hmarks c hc hunnamed, List.flatMap_nil, List.mem_singleton] at hbelow
  rw [← hbelow, nameAt?_isNamed h'] at hunnamed
  exact absurd hunnamed (by decide)

end Pairs

theorem eventAt?_eq_some {layout : Layout} {n : Node Kind} {e : Event}
    (h : eventAt? layout n = some e) :
    ∃ name, nameAt? n = some (e.kind, name) ∧ e.text = name.text
      ∧ layout.relative? name.start name.stop = some (e.segment, e.start, e.stop) := by
  obtain ⟨⟨kind, name⟩, hname, hmap⟩ := Option.bind_eq_some_iff.1 h
  obtain ⟨⟨segment, start, stop⟩, hrange, rfl⟩ := Option.map_eq_some_iff.1 hmap
  exact ⟨name, hname, rfl, hrange⟩

theorem mem_events {layout : Layout} {tree : Syntax.Tree Kind} {e : Event}
    (he : e ∈ (eventsOf layout tree).1) :
    ∃ n ∈ Node.preorder ⟨0, tree⟩, eventAt? layout n = some e := by
  rw [eventsOf_fst] at he
  obtain ⟨n, hn, hevent⟩ := List.mem_filterMap.1 he
  exact ⟨n, List.takeWhile_subset _ hn, hevent⟩

/-- The name of a tag or attribute of markup in segments, which an event reports. -/
structure Reports (tree : Syntax.Tree Kind) (texts : List String) (e : Event)
    (n name : Node Kind) : Prop where
  mem : n ∈ Node.preorder ⟨0, tree⟩
  name_eq : nameAt? n = some (e.kind, name)
  range : (Layout.ofLengths (texts.map String.utf8ByteSize)).relative? name.start name.stop
    = some (e.segment, e.start, e.stop)

namespace Reports

variable {tree : Syntax.Tree Kind} {texts : List String} {e : Event} {n name : Node Kind}

theorem name_mem (h : Reports tree texts e n name) : name ∈ Node.preorder ⟨0, tree⟩ :=
  Node.mem_preorder_trans h.mem (nameAt?_mem h.name_eq)

theorem measured (h : Reports tree texts e n name) (hmeasured : tree.Measured) :
    n.tree.Measured :=
  Node.measured_of_mem_preorder hmeasured h.mem

theorem isTagName (h : Reports tree texts e n name) (hkind : e.kind ≠ .attributeName) :
    IsTagName name :=
  nameAt?_isTagName h.name_eq hkind

end Reports

section Segments

variable {parse : List Char → Syntax.Tree Kind} {texts : List String}

/-- A reported name stands in its segment. -/
theorem events_hold
    (hspells : (parse (String.join texts).toList).Spells (String.join texts).toList) :
    ∀ e ∈ (eventsBy parse texts).1,
      ∃ text, texts[e.segment]? = some text ∧ Holds text.toList e.start e.stop e.text.toList := by
  intro e he
  obtain ⟨n, hn, hevent⟩ := mem_events he
  obtain ⟨name, hname, htext, hrange⟩ := eventAt?_eq_some hevent
  have hplaced := hspells.inPlace.of_mem_preorder hn |>.of_mem_preorder (nameAt?_mem hname)
  have hholds := hplaced.holds
  rw [← Node.toList_text, ← htext] at hholds
  exact Layout.holds_of_relative? hrange hholds

/-- The reported name of a tag has no line ends in it. -/
theorem events_plain (hplain : ∀ cs, PlainNames (parse cs)) :
    ∀ e ∈ (eventsBy parse texts).1, e.kind ≠ .attributeName → IsPlain e.text.toList := by
  intro e he hkind
  obtain ⟨n, hn, hevent⟩ := mem_events he
  obtain ⟨name, hname, htext, -⟩ := eventAt?_eq_some hevent
  have hmem : name ∈ Node.preorder ⟨0, parse (String.join texts).toList⟩ :=
    Node.mem_preorder_trans hn (nameAt?_mem hname)
  rw [htext, Node.toList_text]
  exact hplain _ name hmem (nameAt?_isTagName hname hkind)

/-- Of two reported names the tag of the second one comes after that of the first one in
preorder. -/
theorem events_pairwise (hmeasured : (parse (String.join texts).toList).Measured) :
    (eventsBy parse texts).1.Pairwise fun e e' => ∃ n name n' name',
      Reports (parse (String.join texts).toList) texts e n name
        ∧ Reports (parse (String.join texts).toList) texts e' n' name'
        ∧ (n.stop ≤ n'.start ∨ ∃ c ∈ n.children, n' ∈ c.preorder) := by
  show (eventsOf _ _).1.Pairwise _
  rw [eventsOf_fst, List.pairwise_filterMap]
  refine ((Node.pairwise_preorder hmeasured).sublist
    (List.takeWhile_sublist _)).imp_of_mem ?_
  intro n n' hn hn' hpair e he e' he'
  obtain ⟨name, hname, -, hrange⟩ := eventAt?_eq_some he
  obtain ⟨name', hname', -, hrange'⟩ := eventAt?_eq_some he'
  exact ⟨n, name, n', name', ⟨List.takeWhile_subset _ hn, hname, hrange⟩,
    ⟨List.takeWhile_subset _ hn', hname', hrange'⟩, hpair⟩

/-- The reported names of tags in one segment do not overlap. -/
theorem events_apart (hmeasured : (parse (String.join texts).toList).Measured)
    (hleaf : LeafNames (parse (String.join texts).toList)) :
    (eventsBy parse texts).1.Pairwise fun e e' =>
      e.kind ≠ .attributeName → e'.kind ≠ .attributeName → e.segment = e'.segment →
        e.stop ≤ e'.start ∨ e'.stop ≤ e.start := by
  refine (events_pairwise hmeasured).imp ?_
  rintro e e' ⟨n, name, n', name', h, h', hpair⟩ hkind hkind' hsegment
  have hapart := nameAt?_apart h.name_eq h'.name_eq (h.measured hmeasured)
    (h'.measured hmeasured) (hleaf name h.name_mem (h.isTagName hkind)) hpair
  -- both ranges are counted from the start of the same piece
  obtain ⟨m, howns, -, hstart, hstop⟩ := Layout.owns_of_relative? h.range
  obtain ⟨m', howns', -, hstart', hstop'⟩ := Layout.owns_of_relative? h'.range
  rw [← hsegment] at howns' hstart'
  have := howns.le
  have := howns'.le
  have : name.start ≤ name.stop := Nat.le_add_right _ _
  have : name'.start ≤ name'.stop := Nat.le_add_right _ _
  omega

/-- The names of tags are reported in the order in which they stand in the segments. -/
theorem events_in_order (hmeasured : (parse (String.join texts).toList).Measured)
    (hleaf : LeafNames (parse (String.join texts).toList))
    (hmarks : LeafMarks (parse (String.join texts).toList)) :
    (eventsBy parse texts).1.Pairwise fun e e' =>
      e.kind ≠ .attributeName → e'.kind ≠ .attributeName →
        e.segment < e'.segment ∨ (e.segment = e'.segment ∧ e.stop ≤ e'.start) := by
  refine (events_pairwise hmeasured).imp ?_
  rintro e e' ⟨n, name, n', name', h, h', hpair⟩ hkind hkind'
  have hbefore := nameAt?_before h.name_eq h'.name_eq (h.measured hmeasured)
    (h'.measured hmeasured) (hleaf name h.name_mem (h.isTagName hkind))
    (fun c hc => hmarks c (Node.mem_preorder_trans h.mem
      (Node.mem_preorder_of_child hc c.self_mem_preorder))) hpair
  have : name.start ≤ name.stop := Nat.le_add_right _ _
  obtain ⟨m, howns, -, hstart, hstop⟩ := Layout.owns_of_relative? h.range
  obtain ⟨m', howns', -, hstart', hstop'⟩ := Layout.owns_of_relative? h'.range
  refine (howns.mono howns' (by omega)).lt_or_eq.imp_right fun hsegment => ⟨hsegment, ?_⟩
  rw [← hsegment] at howns' hstart'
  have := howns.le
  have := howns'.le
  omega

end Segments

end ElementLens.Markup
