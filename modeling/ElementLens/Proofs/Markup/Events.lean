/-
What is reported of a template.

A tree of markup is well-formed if it spells the joined segments and has nothing below
names and punctuation. The nodes before its first fault whose names lie within one
segment are reported one for one, in the order of their places in the joined text, and
each with the place that its name has in its segment. The walk ends early exactly if
there is a fault, and then with its place:

* **`isSome_eventAt?_iff`**, **`reportOf_of_eventAt?`** — the event of a node;
* **`eventsOf_snd_eq_none_iff`**, **`eventsOf_snd_eq_some`** — the first fault;
* **`ahead_of_eventsBy`** — the order of the events;
* **`tokenizeBy_reports`** — all of it together.
-/
import ElementLens.Markup.Tokenizer
import ElementLens.Proofs.Markup.Names

namespace ElementLens.Markup

open Syntax Text

/-- Markup whose tree is made of the text, with nothing below names, blanks and
punctuation. -/
structure WellFormed (tree : Syntax.Tree Kind) (cs : List Char) : Prop where
  spells : tree.Spells cs
  leaves : ∀ n ∈ Node.preorder ⟨0, tree⟩,
    n.kind.isNamed = false ∨ n.kind = .tagName ∨ n.kind = .strayName ∨ n.kind = .attributeName →
      n.children = []

/-- Where a segment starts in the joined text. -/
def segmentStart (texts : List String) (i : Nat) : Nat :=
  ((texts.map String.utf8ByteSize).take i).sum

/-- A place in a segment and the same place in the joined text. If several segments start
there, because some are empty, it belongs to the last of them. -/
structure Sits (texts : List String) (segment inner o : Nat) : Prop where
  segment_lt : segment < texts.length
  eq : segmentStart texts segment + inner = o
  last : ∀ j, segment < j → j < texts.length → o < segmentStart texts j

/-- A node lies within one segment. -/
def WithinOne (texts : List String) (n : Node Kind) : Prop :=
  ∃ i < texts.length, segmentStart texts i ≤ n.start ∧ n.stop ≤ segmentStart texts (i + 1)

/-- A node that has a name within one segment. -/
def Reportable (texts : List String) (n : Node Kind) : Prop :=
  ∃ kind name, NameOf n kind name ∧ WithinOne texts name

/-- What is reported of a node: what its name is the name of, where the name is, and what
it says. -/
def ReportOf (texts : List String) (n : Node Kind) (e : Event) : Prop :=
  ∃ name, NameOf n e.kind name ∧ e.text = name.text ∧ Sits texts e.segment e.start name.start
    ∧ segmentStart texts e.segment + e.stop = name.stop

instance (texts : List String) : DecidablePred (WithinOne texts) := fun n =>
  inferInstanceAs (Decidable (∃ i < texts.length,
    segmentStart texts i ≤ n.start ∧ n.stop ≤ segmentStart texts (i + 1)))

instance (texts : List String) : DecidablePred (Reportable texts) := fun n =>
  decidable_of_iff (∃ named ∈ nameAt? n, WithinOne texts named.2) <| by
    constructor
    · rintro ⟨⟨kind, name⟩, hname, hwithin⟩
      exact ⟨kind, name, nameAt?_eq_some_iff.1 hname, hwithin⟩
    · rintro ⟨kind, name, hname, hwithin⟩
      exact ⟨(kind, name), nameAt?_eq_some_iff.2 hname, hwithin⟩

/-! ### Places -/

section Places

variable {texts : List String} {start stop o : Nat}

theorem lengths_ne_nil (hne : texts ≠ []) : texts.map String.utf8ByteSize ≠ [] := by
  simpa using hne

theorem segmentStart_mono (texts : List String) {i j : Nat} (h : i ≤ j) :
    segmentStart texts i ≤ segmentStart texts j :=
  Layout.sum_take_le _ h

theorem sits_of_owns {i n : Nat} (h : Layout.Owns (texts.map String.utf8ByteSize) i n o) :
    Sits texts i (o - segmentStart texts i) o where
  segment_lt := by simpa using h.lt_length
  eq := Nat.add_sub_cancel' h.le
  last j hij hj := h.lt j hij (by simpa using hj)

theorem sits_locate (hne : texts ≠ []) (o : Nat) :
    Sits texts ((Layout.ofLengths (texts.map String.utf8ByteSize)).locate o).1
      ((Layout.ofLengths (texts.map String.utf8ByteSize)).locate o).2 o := by
  obtain ⟨i, n, howns, hlocate⟩ := Layout.locate_owns (lengths_ne_nil hne) o
  rw [hlocate]
  exact sits_of_owns howns

/-- A range that is taken back to a segment starts and ends there. -/
theorem sits_of_relative? {i a b : Nat} (hle : start ≤ stop)
    (h : (Layout.ofLengths (texts.map String.utf8ByteSize)).relative? start stop = some (i, a, b)) :
    Sits texts i a start ∧ segmentStart texts i + b = stop := by
  obtain ⟨n, howns, -, rfl, rfl⟩ := Layout.owns_of_relative? h
  refine ⟨sits_of_owns howns, ?_⟩
  have := howns.le
  rw [segmentStart]
  omega

/-- The ranges that are taken back to a segment are those that lie within one. -/
theorem isSome_relative?_iff (hne : texts ≠ []) :
    ((Layout.ofLengths (texts.map String.utf8ByteSize)).relative? start stop).isSome
      ↔ ∃ i < texts.length, segmentStart texts i ≤ start ∧ stop ≤ segmentStart texts (i + 1) := by
  obtain ⟨i, n, howns, heq⟩ := Layout.relative?_eq (lengths_ne_nil hne) start stop
  have hnext : segmentStart texts (i + 1) = segmentStart texts i + n := howns.sum_next
  have hsits := sits_of_owns howns
  rw [heq, ← segmentStart, ← hnext]
  constructor
  · intro hsome
    refine ⟨i, hsits.segment_lt, howns.le, Nat.le_of_not_lt fun hlt => ?_⟩
    rw [if_pos hlt] at hsome
    exact absurd hsome (by simp)
  · rintro ⟨j, hj, hstart, hstop⟩
    -- no segment that starts at or before the range comes after the one it belongs to
    have hji : j ≤ i := Nat.le_of_not_lt fun hlt =>
      absurd (hsits.last j hlt hj) (Nat.not_lt.2 hstart)
    have := segmentStart_mono texts (Nat.add_le_add_right hji 1)
    rw [if_neg (by omega)]
    rfl

end Places

/-! ### The event of a node -/

section Events

variable {texts : List String} {n : Node Kind} {e : Event}

theorem isSome_eventAt?_iff (hne : texts ≠ []) (n : Node Kind) :
    (eventAt? (Layout.ofLengths (texts.map String.utf8ByteSize)) n).isSome
      ↔ Reportable texts n := by
  unfold eventAt?
  constructor
  · intro hsome
    obtain ⟨e, he⟩ := Option.isSome_iff_exists.1 hsome
    obtain ⟨⟨kind, name⟩, hname, hrange⟩ := Option.bind_eq_some_iff.1 he
    obtain ⟨range, hrelative, -⟩ := Option.map_eq_some_iff.1 hrange
    exact ⟨kind, name, nameAt?_eq_some_iff.1 hname,
      (isSome_relative?_iff hne).1 (by rw [hrelative]; rfl)⟩
  · rintro ⟨kind, name, hname, hwithin⟩
    rw [nameAt?_eq_some_iff.2 hname, Option.bind_some, Option.isSome_map]
    exact (isSome_relative?_iff hne).2 hwithin

theorem reportOf_of_eventAt?
    (h : eventAt? (Layout.ofLengths (texts.map String.utf8ByteSize)) n = some e) :
    ReportOf texts n e := by
  obtain ⟨name, hname, htext, hrange⟩ := eventAt?_eq_some h
  obtain ⟨hsits, hstop⟩ := sits_of_relative? (Nat.le_add_right _ _) hrange
  exact ⟨name, nameAt?_eq_some_iff.1 hname, htext, hsits, hstop⟩

end Events

/-! ### The first fault -/

section Faults

variable {layout : Layout} {tree : Syntax.Tree Kind} {found : List Event} {n : Node Kind}
  {f : Fault}

theorem isFault_of_meet (h : meet layout found n = .error f) :
    n.kind.isFault = true ∧ f = ⟨(layout.locate n.start).1, (layout.locate n.start).2⟩ := by
  unfold meet at h
  split at h
  · next hfault => exact ⟨hfault, (Except.error.inj h).symm⟩
  · exact absurd h (by simp)

/-- Only at a fault a visit fails. -/
theorem meet_error_iff (layout : Layout) (found : List Event) (n : Node Kind) :
    (∃ f, meet layout found n = .error f) ↔ n.kind.isFault = true :=
  ⟨fun ⟨_, h⟩ => (isFault_of_meet h).1, meet_fault layout found n⟩

theorem eventsOf_snd_eq_none_iff :
    (eventsOf layout tree).2 = none ↔ ∀ n ∈ Node.preorder ⟨0, tree⟩, n.kind.isFault = false := by
  change (Node.walk (meet layout) [] ⟨0, tree⟩).2 = none ↔ _
  rw [Node.walk_eq_visitAll, Node.visitAll_snd_eq_none_iff (meet_error_iff layout)]
  simp

theorem eventsOf_snd_eq_some (h : (eventsOf layout tree).2 = some f) :
    ∃ before n after, Node.preorder ⟨0, tree⟩ = before ++ n :: after
      ∧ (∀ m ∈ before, m.kind.isFault = false) ∧ n.kind.isFault = true
      ∧ f = ⟨(layout.locate n.start).1, (layout.locate n.start).2⟩ := by
  change (Node.walk (meet layout) [] ⟨0, tree⟩).2 = some f at h
  rw [Node.walk_eq_visitAll] at h
  obtain ⟨before, n, after, hsplit, hpasses, hfails⟩ :=
    Node.visitAll_eq_some_iff.1 (Prod.ext rfl h)
  obtain ⟨hfault, hf⟩ := isFault_of_meet hfails
  refine ⟨before, n, after, hsplit, fun m hm => ?_, hfault, hf⟩
  obtain ⟨s, next, hok⟩ := hpasses.exists_ok m hm
  by_contra hbad
  obtain ⟨f', hf'⟩ := meet_fault layout s m (by simpa using hbad)
  exact absurd (hf'.symm.trans hok) (by simp)

end Faults

/-! ### All that is reported -/

section Segments

variable {parse : List Char → Syntax.Tree Kind} {texts : List String}

theorem NameOf.children_eq_nil {tree : Syntax.Tree Kind} {cs : List Char} {n name : Node Kind}
    {kind : EventKind} (hwell : WellFormed tree cs) (hn : n ∈ Node.preorder ⟨0, tree⟩)
    (h : NameOf n kind name) : name.children = [] := by
  have hmem : name ∈ Node.preorder ⟨0, tree⟩ :=
    Node.mem_preorder_trans hn (nameAt?_mem (nameAt?_eq_some_iff.2 h))
  refine hwell.leaves name hmem (.inr ?_)
  cases h with
  | startTag _ _ _ hkind | endTag _ _ _ hkind => exact .inl hkind
  | strayName hkind => exact .inr (.inl hkind)
  | attributeName hkind => exact .inr (.inr hkind)

/-- The events come in the order of their places in the joined text, and do not overlap. -/
theorem ahead_of_eventsBy
    (hwell : WellFormed (parse (String.join texts).toList) (String.join texts).toList) :
    (eventsBy parse texts).1.Pairwise fun e e' =>
      segmentStart texts e.segment + e.stop ≤ segmentStart texts e'.segment + e'.start := by
  have hmeasured := hwell.spells.measured
  refine (events_pairwise hmeasured).imp ?_
  rintro e e' ⟨n, name, n', name', h, h', hpair⟩
  have hname := (nameAt?_eq_some_iff.1 h.name_eq).children_eq_nil hwell h.mem
  have hbefore := nameAt?_before h.name_eq h'.name_eq (h.measured hmeasured)
    (h'.measured hmeasured) hname
    (fun c hc hunnamed => hwell.leaves c (Node.mem_preorder_trans h.mem
      (Node.mem_preorder_of_child hc c.self_mem_preorder)) (.inl hunnamed)) hpair
  obtain ⟨-, hstop⟩ := sits_of_relative? (Nat.le_add_right _ _) h.range
  obtain ⟨hsits', -⟩ := sits_of_relative? (Nat.le_add_right _ _) h'.range
  rw [hstop, hsits'.eq]
  exact hbefore

/-- **What is reported of a template.** The segments may be read with any parser that makes
a well-formed tree of the joined text. The events are one for one those of the nodes before
the first fault whose names lie within one segment; each says what stands at its place in
its segment; they come in the order of their places in the joined text and do not overlap.
The reading is stopped exactly if there is a fault, and then at the place of the first. -/
theorem tokenizeBy_reports (hne : texts ≠ [])
    (hwell : WellFormed (parse (String.join texts).toList) (String.join texts).toList) :
    let nodes := Node.preorder ⟨0, parse (String.join texts).toList⟩
    ∃ events stopped, tokenizeBy parse texts = .reported events stopped
      ∧ List.Forall₂ (ReportOf texts)
        ((nodes.takeWhile fun n => !n.kind.isFault).filter fun n => Reportable texts n) events
      ∧ (∀ e ∈ events, ∃ text, texts[e.segment]? = some text
        ∧ Holds text.toList e.start e.stop e.text.toList)
      ∧ (events.Pairwise fun e e' =>
        segmentStart texts e.segment + e.stop ≤ segmentStart texts e'.segment + e'.start)
      ∧ (stopped = none ↔ ∀ n ∈ nodes, n.kind.isFault = false)
      ∧ ∀ reason, stopped = some reason → ∃ f before n after, reason = .malformed f
        ∧ nodes = before ++ n :: after ∧ (∀ m ∈ before, m.kind.isFault = false)
        ∧ n.kind.isFault = true ∧ Sits texts f.segment f.offset n.start := by
  intro nodes
  refine ⟨(eventsBy parse texts).1, (eventsBy parse texts).2.map .malformed, rfl, ?_,
    events_hold hwell.spells, ahead_of_eventsBy hwell, ?_, ?_⟩
  · rw [show (eventsBy parse texts).1 = _ from eventsOf_fst _ _]
    refine forall₂_filterMap (fun n => ?_) (fun n e => reportOf_of_eventAt?) _
    rw [Bool.eq_iff_iff, isSome_eventAt?_iff hne, decide_eq_true_iff]
  · rw [Option.map_eq_none_iff]
    exact eventsOf_snd_eq_none_iff
  · intro reason hreason
    obtain ⟨f, hf, rfl⟩ := Option.map_eq_some_iff.1 hreason
    obtain ⟨before, n, after, hsplit, hbefore, hfault, rfl⟩ := eventsOf_snd_eq_some hf
    exact ⟨_, before, n, after, rfl, hsplit, hbefore, hfault, sits_locate hne n.start⟩

end Segments

/-! ### A template with a fault

The segments of `<a-b c="${x}${y}"></a-b><`. -/

namespace Sample

/-- The segments; the one between the two substitutions is empty. -/
def texts : List String := ["<a-b c=\"", "", "\"></a-b><"]

/-- The parts of `c=""`. -/
def setting : List (Syntax.Tree Kind) :=
  [.leaf .attributeName "c", .leaf .punctuation "=",
    .branch .quotedValue [.leaf .punctuation "\"", .leaf .punctuation "\""]]

/-- The joined segments, with an opening at the end that opens nothing. -/
def opening : Syntax.Tree Kind :=
  .branch .fragment
    [.branch .element
      [.branch .startTag
        [.leaf .punctuation "<", .leaf .tagName "a-b", .leaf .blank " ",
          .branch .attribute setting, .leaf .punctuation ">"],
        .branch .endTag [.leaf .punctuation "</", .leaf .tagName "a-b", .leaf .punctuation ">"]],
      .leaf .error "<"]

end Sample

/-- Two tags and an attribute have their names reported before the fault. -/
theorem tokenizeBy_reports_opening :
    Sample.texts ≠ [] ∧ WellFormed Sample.opening (String.join Sample.texts).toList
      ∧ ∃ events stopped, tokenizeBy (fun _ => Sample.opening) Sample.texts
          = .reported events stopped
        ∧ events.length = 3 ∧ stopped ≠ none
        ∧ events.Pairwise fun e e' => segmentStart Sample.texts e.segment + e.stop
          ≤ segmentStart Sample.texts e'.segment + e'.start := by
  have hne : Sample.texts ≠ [] := by simp [Sample.texts]
  have htext : (String.join Sample.texts).toList = Sample.opening.text := by cbv
  have hwell : WellFormed Sample.opening (String.join Sample.texts).toList := by
    rw [htext]
    refine ⟨⟨rfl, ?_⟩, ?_⟩
    · simp [Sample.opening, Sample.setting, Syntax.Tree.measured_leaf, Syntax.Tree.measured_branch]
    · simp [Sample.opening, Sample.setting, Syntax.Tree.branch, Node.preorder, Node.preorderOf,
        Node.kind, Syntax.Tree.kind, Kind.isNamed, Node.children_eq, Node.placed,
        Syntax.Tree.children]
  obtain ⟨events, stopped, hreported, hevents, -, hahead, hstopped, -⟩ :=
    @tokenizeBy_reports (fun _ => Sample.opening) Sample.texts hne hwell
  refine ⟨hne, hwell, events, stopped, hreported, ?_, ?_, hahead⟩
  · rw [← hevents.length_eq]
    cbv
  · rw [Ne, hstopped]
    intro hall
    have hany : (Node.preorder ⟨0, Sample.opening⟩).any (·.kind.isFault) = true := by cbv
    obtain ⟨n, hn, hfault⟩ := List.any_eq_true.1 hany
    rw [hall n hn] at hfault
    exact absurd hfault (by simp)

end ElementLens.Markup
