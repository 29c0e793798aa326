/-
Pieces of a joined text.

A layout lists the pieces in order, each where it starts in the joined text.
So a range that is taken back to a piece holds there what it holds in the
joined text:

* **`Layout.toList_ofLengths`** — the pieces of a layout;
* **`Layout.locate_owns`** — the last piece that starts at or before a place;
* **`Layout.holds_of_relative?`** — the text of a range within one piece.
-/
import ElementLens.Markup.Layout
import ElementLens.Proofs.Text.Boundary
import Mathlib

namespace ElementLens.Markup.Layout

open Text

/-- Pieces side by side, the first of them at `start`. -/
def piecesFrom (start : Nat) : List Nat → List (Nat × Nat)
  | [] => []
  | n :: ns => (start, n) :: piecesFrom (start + n) ns

theorem toList_ofLengths (lengths : List Nat) :
    (ofLengths lengths).pieces.toList = piecesFrom 0 lengths := by
  have hfold : ∀ (lengths : List Nat) (done : Array (Nat × Nat)) (start : Nat),
      ((lengths.foldl (fun (x : Array (Nat × Nat) × Nat) n => (x.1.push (x.2, n), x.2 + n))
        (done, start)).1).toList = done.toList ++ piecesFrom start lengths := by
    intro lengths
    induction lengths with
    | nil => intro done start; simp [piecesFrom]
    | cons n ns ih =>
      intro done start
      rw [List.foldl_cons, ih]
      simp [piecesFrom]
  exact hfold lengths #[] 0

theorem start_le_of_mem {start : Nat} {lengths : List Nat} :
    ∀ p ∈ piecesFrom start lengths, start ≤ p.1 := by
  induction lengths generalizing start with
  | nil => simp [piecesFrom]
  | cons n ns ih =>
    intro p hp
    rcases List.mem_cons.1 hp with rfl | hp
    · exact le_rfl
    · have := ih p hp
      omega

/-- The last piece that starts at or before a place. -/
theorem exists_piece {start o : Nat} {lengths : List Nat} (hne : lengths ≠ []) (ho : start ≤ o) :
    ∃ (i : Nat) (p : Nat × Nat), (piecesFrom start lengths)[i]? = some p ∧ p.1 ≤ o
      ∧ (∀ (j : Nat) (q : Nat × Nat), j < i → (piecesFrom start lengths)[j]? = some q → q.1 ≤ o)
      ∧ ∀ (j : Nat) (q : Nat × Nat), i < j → (piecesFrom start lengths)[j]? = some q → o < q.1 := by
  induction lengths generalizing start with
  | nil => exact absurd rfl hne
  | cons n ns ih =>
    by_cases hnext : ns ≠ [] ∧ start + n ≤ o
    · obtain ⟨i, p, hi, hle, hbefore, hafter⟩ := ih hnext.1 hnext.2
      refine ⟨i + 1, p, by simpa [piecesFrom] using hi, hle, fun j q hj hq => ?_,
        fun j q hj hq => ?_⟩
      · cases j with
        | zero =>
          obtain rfl : (start, n) = q := by simpa [piecesFrom] using hq
          exact ho
        | succ j => exact hbefore j q (by omega) (by simpa [piecesFrom] using hq)
      · cases j with
        | zero => omega
        | succ j => exact hafter j q (by omega) (by simpa [piecesFrom] using hq)
    · refine ⟨0, (start, n), rfl, ho, fun j q hj _ => absurd hj (Nat.not_lt_zero j),
        fun j q hj hq => ?_⟩
      obtain ⟨j, rfl⟩ : ∃ k, j = k + 1 := ⟨j - 1, by omega⟩
      have hmem : q ∈ piecesFrom (start + n) ns :=
        List.mem_of_getElem? (by simpa [piecesFrom] using hq)
      have hns : ns ≠ [] := by
        rintro rfl
        simp [piecesFrom] at hmem
      have := start_le_of_mem q hmem
      have : ¬ start + n ≤ o := fun h => hnext ⟨hns, h⟩
      omega

/-- A place belongs to the last piece that starts at or before it. -/
theorem locate_eq {lengths : List Nat} (hne : lengths ≠ []) (o : Nat) :
    ∃ (i : Nat) (p : Nat × Nat), (piecesFrom 0 lengths)[i]? = some p ∧ p.1 ≤ o
      ∧ (∀ (j : Nat) (q : Nat × Nat), i < j → (piecesFrom 0 lengths)[j]? = some q → o < q.1)
      ∧ (ofLengths lengths).locate o = (i, o - p.1) := by
  obtain ⟨i, p, hi, hle, hbefore, hafter⟩ := exists_piece hne (Nat.zero_le o)
  refine ⟨i, p, hi, hle, hafter, ?_⟩
  have hget (j : Nat) : (ofLengths lengths).pieces[j]? = (piecesFrom 0 lengths)[j]? := by
    rw [← toList_ofLengths, Array.getElem?_toList]
  have hsize : i < (ofLengths lengths).pieces.size :=
    (Array.getElem?_eq_some_iff.1 ((hget i).trans hi)).1
  have hcount : bisect ((ofLengths lengths).startsUpTo o) 0 (ofLengths lengths).pieces.size
      = i + 1 := by
    refine bisect_eq (Nat.zero_le _) hsize (fun j hj => ?_) (fun j hij hj => ?_)
    · obtain ⟨q, hq⟩ : ∃ q, (piecesFrom 0 lengths)[j]? = some q :=
        ⟨_, (hget j).symm.trans (Array.getElem?_eq_getElem (by omega))⟩
      have hq' : q.1 ≤ o := by
        rcases Nat.lt_or_eq_of_le (Nat.le_of_lt_succ hj) with hlt | rfl
        · exact hbefore j q hlt hq
        · rwa [← Option.some.inj (hi.symm.trans hq)]
      simpa only [startsUpTo, hget, hq, decide_eq_true_eq] using hq'
    · obtain ⟨q, hq⟩ : ∃ q, (piecesFrom 0 lengths)[j]? = some q :=
        ⟨_, (hget j).symm.trans (Array.getElem?_eq_getElem hj)⟩
      have hlt := hafter j q hij hq
      simp only [startsUpTo, hget, hq, decide_eq_false_iff_not]
      omega
  rw [locate, hcount, Nat.add_sub_cancel]
  simp only [hget, hi]

theorem getElem?_piecesFrom (start : Nat) (lengths : List Nat) (i : Nat) :
    (piecesFrom start lengths)[i]?
      = lengths[i]?.map fun n => (start + (lengths.take i).sum, n) := by
  induction lengths generalizing start i with
  | nil => simp [piecesFrom]
  | cons n ns ih =>
    cases i with
    | zero => simp [piecesFrom]
    | succ i => simp [piecesFrom, ih, Nat.add_assoc]

theorem sum_take_le (lengths : List Nat) {i j : Nat} (h : i ≤ j) :
    (lengths.take i).sum ≤ (lengths.take j).sum :=
  lengths.monotone_sum_take h

/-- The piece of a range: the last one that starts at or before the range. -/
structure Owns (lengths : List Nat) (i n start : Nat) : Prop where
  piece : lengths[i]? = some n
  le : (lengths.take i).sum ≤ start
  lt : ∀ j, i < j → j < lengths.length → start < (lengths.take j).sum

namespace Owns

variable {lengths : List Nat} {i n start : Nat}

theorem lt_length (h : Owns lengths i n start) : i < lengths.length :=
  (List.getElem?_eq_some_iff.1 h.piece).1

theorem sum_next (h : Owns lengths i n start) :
    (lengths.take (i + 1)).sum = (lengths.take i).sum + n := by
  obtain ⟨hi, rfl⟩ := List.getElem?_eq_some_iff.1 h.piece
  exact List.sum_take_succ lengths i hi

/-- A piece that starts behind the start of the range starts behind the piece of the
range. -/
theorem le_sum (h : Owns lengths i n start) {j : Nat} (hj : start < (lengths.take j).sum) :
    (lengths.take i).sum + n ≤ (lengths.take j).sum := by
  rw [← h.sum_next]
  refine sum_take_le lengths (Nat.lt_of_not_le fun hji => ?_)
  exact absurd (hj.trans_le (sum_take_le lengths hji)) (Nat.not_lt.2 h.le)

/-- A later range does not belong to an earlier piece. -/
theorem mono (h : Owns lengths i n start) {j m start' : Nat} (h' : Owns lengths j m start')
    (hle : start ≤ start') : i ≤ j := by
  refine Nat.le_of_not_lt fun hlt => ?_
  have := h'.lt i hlt h.lt_length
  have := h.le
  omega

end Owns

theorem getElem?_pieces (lengths : List Nat) (i : Nat) :
    (ofLengths lengths).pieces[i]? = lengths[i]?.map fun n => ((lengths.take i).sum, n) := by
  rw [← Array.getElem?_toList, toList_ofLengths, getElem?_piecesFrom]
  simp

/-- A place is counted from the start of the piece that it belongs to. -/
theorem locate_owns {lengths : List Nat} (hne : lengths ≠ []) (o : Nat) :
    ∃ i n, Owns lengths i n o
      ∧ (ofLengths lengths).locate o = (i, o - (lengths.take i).sum) := by
  obtain ⟨i, ⟨s, n⟩, hi, hle, hafter, hlocate⟩ := locate_eq hne o
  obtain ⟨m, hm, heq⟩ := Option.map_eq_some_iff.1 ((getElem?_piecesFrom 0 lengths i).symm.trans hi)
  obtain ⟨rfl, rfl⟩ := Prod.mk.inj heq
  rw [Nat.zero_add] at *
  refine ⟨i, m, ⟨hm, hle, fun j hij hj => ?_⟩, hlocate⟩
  have hnext := hafter j (0 + (lengths.take j).sum, lengths[j]) hij (by
    rw [getElem?_piecesFrom, List.getElem?_eq_getElem hj]
    rfl)
  rwa [Nat.zero_add] at hnext

theorem relative?_eq {lengths : List Nat} (hne : lengths ≠ []) (start stop : Nat) :
    ∃ i n, Owns lengths i n start ∧ (ofLengths lengths).relative? start stop
      = if (lengths.take i).sum + n < stop then none
        else some (i, start - (lengths.take i).sum,
          start - (lengths.take i).sum + (stop - start)) := by
  obtain ⟨i, n, howns, hlocate⟩ := locate_owns hne start
  refine ⟨i, n, howns, ?_⟩
  rw [relative?, hlocate]
  simp only [getElem?_pieces, howns.piece, Option.map_some]

/-- A range within one piece is counted from the start of that piece. -/
theorem owns_of_relative? {lengths : List Nat} {start stop i a b : Nat}
    (h : (ofLengths lengths).relative? start stop = some (i, a, b)) :
    ∃ n, Owns lengths i n start ∧ stop ≤ (lengths.take i).sum + n
      ∧ a = start - (lengths.take i).sum ∧ b = a + (stop - start) := by
  have hne : lengths ≠ [] := by
    rintro rfl
    exact absurd h (by simp [relative?, ofLengths])
  obtain ⟨k, n, howns, heq⟩ := relative?_eq hne start stop
  rw [heq] at h
  split at h
  · exact absurd h (by simp)
  · rename_i hstop
    simp only [Option.some.injEq, Prod.mk.injEq] at h
    obtain ⟨rfl, rfl, rfl⟩ := h
    exact ⟨n, howns, Nat.le_of_not_lt hstop, rfl, rfl⟩

theorem relative?_eq_some {lengths : List Nat} {start stop i a b : Nat}
    (h : (ofLengths lengths).relative? start stop = some (i, a, b)) :
    ∃ s n, (piecesFrom 0 lengths)[i]? = some (s, n) ∧ s ≤ start ∧ stop ≤ s + n
      ∧ a = start - s ∧ b = a + (stop - start) := by
  obtain ⟨n, howns, hstop, ha, hb⟩ := owns_of_relative? h
  refine ⟨_, n, ?_, howns.le, hstop, ha, hb⟩
  rw [getElem?_piecesFrom, howns.piece, Option.map_some, Nat.zero_add]

/-- The text of a piece stands in the joined text where the piece starts. -/
theorem holds_piece {cs : List Char} {start stop : Nat} {texts : List String}
    (h : Holds cs start stop (texts.flatMap String.toList)) {i s n : Nat}
    (hi : (piecesFrom start (texts.map String.utf8ByteSize))[i]? = some (s, n)) :
    ∃ text, texts[i]? = some text ∧ Holds cs s (s + n) text.toList := by
  induction texts generalizing start i with
  | nil => simp [piecesFrom] at hi
  | cons text texts ih =>
    rw [List.flatMap_cons] at h
    obtain ⟨hfirst, hrest⟩ := h.split
    rw [bytes_toList] at hfirst hrest
    cases i with
    | zero =>
      obtain ⟨rfl, rfl⟩ : start = s ∧ text.utf8ByteSize = n := by simpa [piecesFrom] using hi
      exact ⟨text, rfl, hfirst⟩
    | succ i =>
      obtain ⟨text', ht, hholds⟩ := ih hrest (by simpa [piecesFrom] using hi)
      exact ⟨text', by simpa using ht, hholds⟩

/-- The joined text is made of the texts of the pieces. -/
theorem holds_join (texts : List String) :
    Holds (String.join texts).toList 0 (bytes (String.join texts).toList)
      (texts.flatMap String.toList) := by
  rw [← String.toList_join]
  exact ⟨[], [], by simp, rfl, by simp⟩

/-- A range that lies within one piece holds there what it holds in the joined
text. -/
theorem holds_of_relative? {texts : List String} {start stop i a b : Nat} {word : List Char}
    (h : (ofLengths (texts.map String.utf8ByteSize)).relative? start stop = some (i, a, b))
    (hword : Holds (String.join texts).toList start stop word) :
    ∃ text, texts[i]? = some text ∧ Holds text.toList a b word := by
  obtain ⟨s, n, hi, hle, hstop, rfl, rfl⟩ := relative?_eq_some h
  obtain ⟨text, ht, hpiece⟩ := holds_piece (holds_join texts) hi
  refine ⟨text, ht, ?_⟩
  have hinner := hpiece.within hword hle hstop
  have := hword.bytes_eq
  rwa [show start - s + (stop - start) = stop - s by omega]

end ElementLens.Markup.Layout
