/-
From the joined text back to the segments.

A layout takes every place of the joined text back to a segment, and every range that lies
within one segment to the range that it is there, with the same text. A range that is not
empty lies within one segment at most, and within none exactly if there is a seam inside
it:

* **`Layout.relative?_eq_some_iff`** — the ranges within one segment;
* **`Layout.holds_segment`** — where a segment stands in the joined text;
* **`Layout.maps_back`** — places, ranges and texts.
-/
import ElementLens.Proofs.Markup.Events
import ElementLens.Proofs.Markup.Seams
import ElementLens.Proofs.Text.Bytes

namespace ElementLens.Markup

open Text

namespace Layout

/-! ### Ranges within one segment -/

section Ranges

variable {lengths : List Nat} {start stop i a b n : Nat}

/-- A place before the end of a piece that starts at or before it belongs to that piece. -/
theorem owns_of_lt (hn : lengths[i]? = some n) (hle : (lengths.take i).sum ≤ start)
    (hlt : start < (lengths.take i).sum + n) : Owns lengths i n start where
  piece := hn
  le := hle
  lt j hij _ := by
    obtain ⟨hi, rfl⟩ := List.getElem?_eq_some_iff.1 hn
    rw [← List.sum_take_succ lengths i hi] at hlt
    exact hlt.trans_le (sum_take_le lengths hij)

/-- A range that is not empty is taken back to a piece exactly if it lies within it. -/
theorem relative?_eq_some_iff (hlt : start < stop) :
    (ofLengths lengths).relative? start stop = some (i, a, b)
      ↔ ∃ n, lengths[i]? = some n ∧ (lengths.take i).sum + a = start
        ∧ (lengths.take i).sum + b = stop ∧ b ≤ n := by
  constructor
  · intro h
    obtain ⟨n, howns, hstop, rfl, rfl⟩ := owns_of_relative? h
    have hle := howns.le
    exact ⟨n, howns.piece, by omega, by omega, by omega⟩
  · rintro ⟨n, hn, rfl, rfl, hb⟩
    have hne : lengths ≠ [] := by
      rintro rfl
      simp at hn
    obtain ⟨k, m, howns, heq⟩ := relative?_eq hne ((lengths.take i).sum + a)
      ((lengths.take i).sum + b)
    have howns' : Owns lengths i n ((lengths.take i).sum + a) :=
      owns_of_lt hn (Nat.le_add_right _ _) (by omega)
    obtain rfl : k = i := Nat.le_antisymm (howns.mono howns' le_rfl) (howns'.mono howns le_rfl)
    obtain rfl : m = n := Option.some.inj (howns.piece.symm.trans hn)
    rw [heq, if_neg (by omega), Nat.add_sub_cancel_left, Nat.add_sub_add_left]
    congr 3
    omega

end Ranges

/-! ### Texts of ranges -/

section Texts

variable {texts : List String} {text : String} {i a b : Nat}

/-- A segment stands in the joined text where it starts there. -/
theorem holds_segment (hi : texts[i]? = some text) :
    Holds (String.join texts).toList (segmentStart texts i)
      (segmentStart texts i + text.utf8ByteSize) text.toList := by
  have hpiece : (piecesFrom 0 (texts.map String.utf8ByteSize))[i]?
      = some (segmentStart texts i, text.utf8ByteSize) := by
    rw [getElem?_piecesFrom, List.getElem?_map, hi, Nat.zero_add]
    rfl
  obtain ⟨text', htext', hholds⟩ := holds_piece (holds_join texts) hpiece
  obtain rfl : text = text' := Option.some.inj (hi.symm.trans htext')
  exact hholds

/-- A range of a segment and the same range of the joined text hold the same. -/
theorem holds_segment_iff (hi : texts[i]? = some text) (hb : b ≤ text.utf8ByteSize)
    (word : List Char) :
    Holds (String.join texts).toList (segmentStart texts i + a) (segmentStart texts i + b) word
      ↔ Holds text.toList a b word := by
  constructor
  · intro h
    have hinner := (holds_segment hi).within h (Nat.le_add_right _ _) (Nat.add_le_add_left hb _)
    rwa [Nat.add_sub_cancel_left, Nat.add_sub_cancel_left] at hinner
  · exact (holds_segment hi).trans

/-- A range that is not empty is taken back to a segment exactly if it lies within it. -/
theorem relative?_eq_some_iff_segment {start stop : Nat} (hlt : start < stop) :
    (ofLengths (texts.map String.utf8ByteSize)).relative? start stop = some (i, a, b)
      ↔ ∃ text, texts[i]? = some text ∧ segmentStart texts i + a = start
        ∧ segmentStart texts i + b = stop ∧ b ≤ text.utf8ByteSize := by
  rw [relative?_eq_some_iff hlt, List.getElem?_map]
  constructor
  · rintro ⟨n, hn, hrange⟩
    obtain ⟨text, hi, rfl⟩ := Option.map_eq_some_iff.1 hn
    exact ⟨text, hi, hrange⟩
  · rintro ⟨text, hi, hrange⟩
    exact ⟨text.utf8ByteSize, by rw [hi]; rfl, hrange⟩

/-- **A layout maps back exactly.** It knows where the segments start in the joined text and
how long they are. A place of the joined text is counted from the start of the last segment
that starts at or before it. A range that is not empty is taken back to a segment exactly if
it lies within it, and then both hold the same text, byte for byte; it is taken back to none
exactly if there is a seam inside it. -/
theorem maps_back (hne : texts ≠ []) :
    let layout := ofLengths (texts.map String.utf8ByteSize)
    let joined := (String.join texts).toList
    (∀ i, layout.pieces[i]?
        = texts[i]?.map fun text => (segmentStart texts i, text.utf8ByteSize))
      ∧ (∀ o, Sits texts (layout.locate o).1 (layout.locate o).2 o)
      ∧ ∀ start stop, start < stop → stop ≤ bytes joined →
        (∀ i a b, layout.relative? start stop = some (i, a, b)
          ↔ ∃ text, texts[i]? = some text ∧ segmentStart texts i + a = start
            ∧ segmentStart texts i + b = stop ∧ b ≤ text.utf8ByteSize)
        ∧ (∀ i a b text, layout.relative? start stop = some (i, a, b) → texts[i]? = some text →
          (encodeUtf8 joined).extract start stop = (encodeUtf8 text.toList).extract a b
            ∧ ∀ word, Holds joined start stop word ↔ Holds text.toList a b word)
        ∧ (layout.relative? start stop = none
          ↔ ∃ o, Seam (texts.map String.utf8ByteSize) o ∧ start < o ∧ o < stop) := by
  intro layout joined
  refine ⟨fun i => ?_, sits_locate hne, fun start stop hlt hstop =>
    ⟨fun i a b => relative?_eq_some_iff_segment hlt, ?_, ?_⟩⟩
  · rw [getElem?_pieces, List.getElem?_map, Option.map_map]
    rfl
  · intro i a b text hrange hi
    obtain ⟨text', hi', rfl, rfl, hb⟩ := (relative?_eq_some_iff_segment hlt).1 hrange
    obtain rfl : text = text' := Option.some.inj (hi.symm.trans hi')
    refine ⟨(holds_segment hi).extract_encodeUtf8 (by omega) ?_, holds_segment_iff hi hb⟩
    rwa [bytes_toList]
  · rw [bytes_join] at hstop
    exact relative?_eq_none_iff (lengths_ne_nil hne) hstop

/-- The segments of `<a>${x}${y}</a>`: where the empty one starts the last one starts, too. -/
theorem maps_back_empty_segment :
    let texts := ["<a>", "", "</a>"]
    let layout := ofLengths (texts.map String.utf8ByteSize)
    texts ≠ [] ∧ 5 < 6 ∧ 6 ≤ bytes (String.join texts).toList
      ∧ layout.locate 3 = (2, 0) ∧ Sits texts 2 0 3
      ∧ layout.relative? 5 6 = some (2, 2, 3)
      ∧ (∀ word, Holds (String.join texts).toList 5 6 word ↔ Holds "</a>".toList 2 3 word)
      ∧ ∃ o, Seam (texts.map String.utf8ByteSize) o ∧ 1 < o ∧ o < 4 := by
  intro texts layout
  have hne : texts ≠ [] := by simp [texts]
  have hsize : bytes (String.join texts).toList = 7 := by cbv
  have hlocate : layout.locate 3 = (2, 0) := by cbv
  have hrange : layout.relative? 5 6 = some (2, 2, 3) := by cbv
  have hcrossing : layout.relative? 1 4 = none := by cbv
  obtain ⟨-, hsits, hranges⟩ := maps_back hne
  obtain ⟨-, htext, -⟩ := hranges 5 6 (by decide) (by rw [hsize]; decide)
  obtain ⟨-, -, hnone⟩ := hranges 1 4 (by decide) (by rw [hsize]; decide)
  have hthree := hsits 3
  rw [show (ofLengths (texts.map String.utf8ByteSize)).locate 3 = (2, 0) from hlocate] at hthree
  exact ⟨hne, by decide, by rw [hsize]; decide, hlocate, hthree, hrange,
    (htext 2 2 3 "</a>" hrange rfl).2, hnone.1 hcrossing⟩

end Texts

end Layout

end ElementLens.Markup
