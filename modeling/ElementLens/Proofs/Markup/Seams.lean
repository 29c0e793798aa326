/-
Names at the seams of a template.

Where a substitution stood, two segments meet: their joined text has a seam there.
A name with a seam inside it is not reported. But a name that begins or ends at a
seam lies within one segment, and is reported like any other:

* **`Layout.relative?_eq_none_iff`** — the ranges that do not lie within one piece;
* **`Layout.at_seam_iff`** — the ranges within one piece that begin or end at a
  seam;
* **`clear_of_seams_iff`** — when no reported name of a tag touches a seam.
-/
import ElementLens.Proofs.Markup.Names

namespace ElementLens.Markup

open Syntax Text

namespace Layout

/-- A place in the joined text where one piece ends and another one begins. -/
def Seam (lengths : List Nat) (o : Nat) : Prop :=
  ∃ i, 0 < i ∧ i < lengths.length ∧ o = (lengths.take i).sum

variable {lengths : List Nat} {start stop : Nat}

/-- A range does not lie within one piece if and only if there is a seam inside it. -/
theorem relative?_eq_none_iff (hne : lengths ≠ []) (hstop : stop ≤ lengths.sum) :
    (ofLengths lengths).relative? start stop = none
      ↔ ∃ o, Seam lengths o ∧ start < o ∧ o < stop := by
  obtain ⟨i, n, howns, heq⟩ := relative?_eq hne start stop
  rw [heq]
  constructor
  · intro hnone
    have hlt : (lengths.take i).sum + n < stop := by
      by_contra hle
      rw [if_neg hle] at hnone
      exact absurd hnone (by simp)
    -- the range goes on behind its piece, so there is another piece
    have hnext : i + 1 < lengths.length := by
      refine Nat.lt_of_le_of_ne howns.lt_length fun hlast => ?_
      have hsum := howns.sum_next
      rw [hlast, List.take_length] at hsum
      omega
    refine ⟨_, ⟨i + 1, i.succ_pos, hnext, rfl⟩, howns.lt _ i.lt_succ_self hnext, ?_⟩
    rwa [howns.sum_next]
  · rintro ⟨o, ⟨j, -, -, rfl⟩, hafter, hbefore⟩
    rw [if_pos ((howns.le_sum hafter).trans_lt hbefore)]

/-- A range within one piece begins or ends at a seam if and only if it begins where
the piece does, which is not the first one, or ends where the piece does, which is not
the last one. -/
theorem at_seam_iff {i a b : Nat} (hle : start ≤ stop)
    (h : (ofLengths lengths).relative? start stop = some (i, a, b)) :
    Seam lengths start ∨ Seam lengths stop
      ↔ (a = 0 ∧ i ≠ 0) ∨ (lengths[i]? = some b ∧ i + 1 < lengths.length) := by
  obtain ⟨n, howns, hwithin, rfl, rfl⟩ := owns_of_relative? h
  have hstart := howns.le
  rw [howns.piece, Option.some.injEq]
  constructor
  · rintro (⟨j, hpos, hj, rfl⟩ | ⟨j, hpos, hj, rfl⟩)
    · -- the piece is the last one that begins there
      have hji : ¬ i < j := fun hlt => (howns.lt j hlt hj).false
      have := sum_take_le lengths (Nat.le_of_not_lt hji)
      exact .inl ⟨by omega, by omega⟩
    · by_cases hempty : start < (lengths.take j).sum
      · have := howns.le_sum hempty
        have hij : i < j := Nat.lt_of_not_le fun hji => by
          have := sum_take_le lengths hji
          omega
        exact .inr ⟨by omega, by omega⟩
      · -- nothing is in the range, so it begins at the seam, too
        have hji : ¬ i < j := fun hlt => hempty (howns.lt j hlt hj)
        have := sum_take_le lengths (Nat.le_of_not_lt hji)
        exact .inl ⟨by omega, by omega⟩
  · rintro (⟨hzero, hi⟩ | ⟨hend, hnext⟩)
    · exact .inl ⟨i, Nat.pos_of_ne_zero hi, howns.lt_length, by omega⟩
    · refine .inr ⟨i + 1, i.succ_pos, hnext, ?_⟩
      rw [howns.sum_next]
      omega

end Layout

/-! ### Names of tags -/

/-- A name touches a substitution: it begins where its segment does, which is not the
first one, or ends where its segment does, which is not the last one. -/
def Event.Touches (texts : List String) (e : Event) : Prop :=
  (e.start = 0 ∧ e.segment ≠ 0)
    ∨ ((texts.map String.utf8ByteSize)[e.segment]? = some e.stop ∧ e.segment + 1 < texts.length)

/-- The names of the tags before the first fault, reported or not. -/
def tagNames (tree : Syntax.Tree Kind) : List (Node Kind) :=
  ((Node.preorder ⟨0, tree⟩).takeWhile fun n => !n.kind.isFault).filterMap fun n =>
    ((nameAt? n).filter fun named => named.1 ≠ .attributeName).map Prod.snd

theorem mem_tagNames {tree : Syntax.Tree Kind} {name : Node Kind} :
    name ∈ tagNames tree ↔ ∃ n ∈ (Node.preorder ⟨0, tree⟩).takeWhile fun n => !n.kind.isFault,
      ∃ kind, nameAt? n = some (kind, name) ∧ kind ≠ .attributeName := by
  simp [tagNames, List.mem_filterMap, Option.map_eq_some_iff, Option.filter_eq_some_iff]

section Segments

variable {parse : List Char → Syntax.Tree Kind} {texts : List String}

theorem bytes_join (texts : List String) :
    bytes (String.join texts).toList = (texts.map String.utf8ByteSize).sum := by
  rw [String.toList_join]
  induction texts with
  | nil => rfl
  | cons text texts ih =>
    rw [List.flatMap_cons, bytes_append, bytes_toList, ih, List.map_cons, List.sum_cons]

/-- The names of tags lie in the joined text. -/
theorem stop_le_of_mem_tagNames
    (hspells : (parse (String.join texts).toList).Spells (String.join texts).toList)
    {name : Node Kind} (hname : name ∈ tagNames (parse (String.join texts).toList)) :
    name.stop ≤ (texts.map String.utf8ByteSize).sum := by
  obtain ⟨n, hn, kind, hat, -⟩ := mem_tagNames.1 hname
  have hmem : name ∈ Node.preorder ⟨0, parse (String.join texts).toList⟩ :=
    Node.mem_preorder_trans (List.takeWhile_subset _ hn) (nameAt?_mem hat)
  rw [← bytes_join]
  exact (hspells.inPlace.of_mem_preorder hmem).holds.isBoundary.2.le_bytes

/-- A name of a tag that lies within one segment is reported. -/
theorem exists_event {name : Node Kind} {i a b : Nat}
    (hname : name ∈ tagNames (parse (String.join texts).toList))
    (hrange : (Layout.ofLengths (texts.map String.utf8ByteSize)).relative? name.start name.stop
      = some (i, a, b)) :
    ∃ e ∈ (eventsBy parse texts).1, e.kind ≠ .attributeName
      ∧ e.segment = i ∧ e.start = a ∧ e.stop = b := by
  obtain ⟨n, hn, kind, hat, hkind⟩ := mem_tagNames.1 hname
  refine ⟨⟨kind, i, a, b, name.text⟩, ?_, hkind, rfl, rfl, rfl⟩
  show _ ∈ (eventsOf _ _).1
  rw [eventsOf_fst, List.mem_filterMap]
  exact ⟨n, hn, by rw [eventAt?, hat, Option.bind_some, hrange, Option.map_some]⟩

/-- A reported name of a tag lies within one segment. -/
theorem exists_tagName {e : Event} (he : e ∈ (eventsBy parse texts).1)
    (hkind : e.kind ≠ .attributeName) :
    ∃ name ∈ tagNames (parse (String.join texts).toList),
      (Layout.ofLengths (texts.map String.utf8ByteSize)).relative? name.start name.stop
        = some (e.segment, e.start, e.stop) := by
  change e ∈ (eventsOf _ _).1 at he
  rw [eventsOf_fst] at he
  obtain ⟨n, hn, hevent⟩ := List.mem_filterMap.1 he
  obtain ⟨name, hat, -, hrange⟩ := eventAt?_eq_some hevent
  exact ⟨name, mem_tagNames.2 ⟨n, hn, e.kind, hat, hkind⟩, hrange⟩

/-- A reported name touches a substitution if it begins or ends at a seam. -/
theorem touches_iff {e : Event} {name : Node Kind}
    (hrange : (Layout.ofLengths (texts.map String.utf8ByteSize)).relative? name.start name.stop
      = some (e.segment, e.start, e.stop)) :
    e.Touches texts ↔ Layout.Seam (texts.map String.utf8ByteSize) name.start
      ∨ Layout.Seam (texts.map String.utf8ByteSize) name.stop := by
  have hle : name.start ≤ name.stop := Nat.le_add_right _ _
  rw [Layout.at_seam_iff hle hrange, List.length_map]
  rfl

/-- **When no reported name of a tag touches a substitution**: exactly when each name of
a tag that begins or ends at a seam has another seam inside it. Markup may be read with
any parser whose tree is made of the text. -/
theorem clear_of_seams_iff
    (hspells : (parse (String.join texts).toList).Spells (String.join texts).toList) :
    (∀ e ∈ (eventsBy parse texts).1, e.kind ≠ .attributeName → ¬ e.Touches texts)
      ↔ ∀ name ∈ tagNames (parse (String.join texts).toList),
          Layout.Seam (texts.map String.utf8ByteSize) name.start
              ∨ Layout.Seam (texts.map String.utf8ByteSize) name.stop →
            ∃ o, Layout.Seam (texts.map String.utf8ByteSize) o
              ∧ name.start < o ∧ o < name.stop := by
  constructor
  · intro hclear name hname hseam
    have hne : texts.map String.utf8ByteSize ≠ [] := by
      intro hnil
      obtain ⟨i, -, hi, -⟩ | ⟨i, -, hi, -⟩ := hseam <;> simp [hnil] at hi
    rw [← Layout.relative?_eq_none_iff hne (stop_le_of_mem_tagNames hspells hname)]
    -- a name that lies within one segment would be reported
    by_contra hsome
    obtain ⟨⟨i, a, b⟩, hrange⟩ := Option.ne_none_iff_exists'.1 hsome
    obtain ⟨e, he, hkind, rfl, rfl, rfl⟩ := exists_event hname hrange
    exact hclear e he hkind ((touches_iff hrange).2 hseam)
  · intro hinside e he hkind htouches
    obtain ⟨name, hname, hrange⟩ := exists_tagName he hkind
    have hne : texts.map String.utf8ByteSize ≠ [] := by
      intro hnil
      rw [hnil] at hrange
      exact absurd hrange (by simp [Layout.relative?, Layout.ofLengths])
    have hnone := (Layout.relative?_eq_none_iff hne (stop_le_of_mem_tagNames hspells hname)).2
      (hinside name hname ((touches_iff hrange).1 htouches))
    rw [hnone] at hrange
    exact absurd hrange (by simp)

end Segments

/-! ### Names cut off by a substitution

The segments of `<my-${x}/>` and of `<${x}my-${y}a/>`. -/

namespace Sample

/-- The joined segments of the first template. -/
def cutOff : Syntax.Tree Kind :=
  .branch .fragment
    [.branch .element
      [.branch .selfClosingTag
        [.leaf .punctuation "<", .leaf .tagName "my-", .leaf .punctuation "/>"]]]

/-- The joined segments of the second template. -/
def cutThrough : Syntax.Tree Kind :=
  .branch .fragment
    [.branch .element
      [.branch .selfClosingTag
        [.leaf .punctuation "<", .leaf .tagName "my-a", .leaf .punctuation "/>"]]]

/-- The segments of the second template. -/
def segments : List String := ["<", "my-", "a/>"]

/-- Reads the markup of the two templates. -/
def parse (cs : List Char) : Syntax.Tree Kind :=
  if cutOff.text = cs then cutOff
  else if cutThrough.text = cs then cutThrough
  else .leaf .error (String.ofList cs)

end Sample

/-- What is left of a name before a substitution is reported as a name. -/
theorem cut_off_touches : (eventsBy Sample.parse ["<my-", "/>"]).1
      = [⟨.startTagName, 0, 1, 4, "my-"⟩]
    ∧ ¬ ∀ e ∈ (eventsBy Sample.parse ["<my-", "/>"]).1, e.kind ≠ .attributeName →
      ¬ e.Touches ["<my-", "/>"] := by
  have hevents : (eventsBy Sample.parse ["<my-", "/>"]).1
      = [⟨.startTagName, 0, 1, 4, "my-"⟩] := by
    cbv
  refine ⟨hevents, fun hclear => ?_⟩
  rw [hevents] at hclear
  exact hclear _ (List.mem_singleton.2 rfl) (by decide) (.inr ⟨by decide, by decide⟩)

/-- A name with a substitution in it is not reported, even if it begins at another one. -/
theorem cut_through_clear :
    (Sample.parse (String.join Sample.segments).toList).Spells (String.join Sample.segments).toList
      ∧ (∃ name ∈ tagNames (Sample.parse (String.join Sample.segments).toList),
          Layout.Seam (Sample.segments.map String.utf8ByteSize) name.start)
      ∧ ∀ name ∈ tagNames (Sample.parse (String.join Sample.segments).toList),
          Layout.Seam (Sample.segments.map String.utf8ByteSize) name.start
              ∨ Layout.Seam (Sample.segments.map String.utf8ByteSize) name.stop →
            ∃ o, Layout.Seam (Sample.segments.map String.utf8ByteSize) o
              ∧ name.start < o ∧ o < name.stop := by
  have htree : Sample.parse (String.join Sample.segments).toList = Sample.cutThrough := by cbv
  have htext : (String.join Sample.segments).toList = Sample.cutThrough.text := by cbv
  have hspells : (Sample.parse (String.join Sample.segments).toList).Spells
      (String.join Sample.segments).toList := by
    rw [htree, htext]
    exact ⟨rfl, by simp [Sample.cutThrough, Syntax.Tree.measured_leaf, Syntax.Tree.measured_branch]⟩
  have hnames : tagNames (Sample.parse (String.join Sample.segments).toList)
      = [⟨1, .leaf .tagName "my-a"⟩] := by cbv
  have hevents : (eventsBy Sample.parse Sample.segments).1 = [] := by cbv
  refine ⟨hspells, ⟨_, hnames ▸ List.mem_singleton.2 rfl, 1, by decide⟩,
    (clear_of_seams_iff hspells).1 ?_⟩
  rw [hevents]
  exact fun e he => absurd he List.not_mem_nil

end ElementLens.Markup
