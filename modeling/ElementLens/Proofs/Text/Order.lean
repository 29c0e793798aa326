/-
Positions are in the order of offsets.

Positions are compared by line and then by column. An offset on a later line has
a later line number, and on one line more characters before an offset mean more
code units. So positions are in the order of the boundaries they were made of,
inside line ends too:

* **`Position.lt_iff`** — the order of positions;
* **`Span.encloses_iff`** — being strictly inside a span;
* **`positionAt_lt`** — a later boundary has a later position.
-/
import ElementLens.Proofs.Text.Place
import Mathlib.Order.Defs.LinearOrder

namespace ElementLens

namespace Position

theorem compare_eq_lt {a b : Position} :
    a.compare b = .lt ↔ a.line < b.line ∨ (a.line = b.line ∧ a.character < b.character) := by
  rw [compare, Ordering.then_eq_lt, Nat.compare_eq_lt, Nat.compare_eq_eq, Nat.compare_eq_lt]

theorem compare_eq_gt {a b : Position} : a.compare b = .gt ↔ b.compare a = .lt := by
  rw [compare_eq_lt, compare, Ordering.then_eq_gt, Nat.compare_eq_gt, Nat.compare_eq_eq,
    Nat.compare_eq_gt, eq_comm]

/-- Positions in the order in which they are compared. -/
instance : LinearOrder Position where
  le a b := a.compare b ≠ .gt
  lt a b := a.compare b = .lt
  le_refl a := by
    rw [Ne, compare_eq_gt, compare_eq_lt]
    omega
  le_trans a b c := by
    simp only [Ne, compare_eq_gt, compare_eq_lt]
    omega
  le_antisymm a b := by
    obtain ⟨line, character⟩ := a
    obtain ⟨line', character'⟩ := b
    simp only [Ne, compare_eq_gt, compare_eq_lt, mk.injEq]
    omega
  le_total a b := by
    simp only [Ne, compare_eq_gt, compare_eq_lt]
    omega
  lt_iff_le_not_ge a b := by
    simp only [Ne, compare_eq_gt, compare_eq_lt]
    omega
  toDecidableLE a b := inferInstanceAs (Decidable (a.compare b ≠ .gt))
  toDecidableLT a b := inferInstanceAs (Decidable (a.compare b = .lt))

theorem lt_iff {a b : Position} :
    a < b ↔ a.line < b.line ∨ (a.line = b.line ∧ a.character < b.character) :=
  compare_eq_lt

end Position

/-- A span encloses the positions strictly between its ends. -/
theorem Span.encloses_iff {s : Span} {p : Position} :
    s.encloses p = true ↔ s.start < p ∧ p < s.stop := by
  rw [encloses, Bool.and_eq_true, beq_iff_eq, beq_iff_eq, Position.compare_eq_gt]
  rfl

namespace Text

/-- A later boundary has a later position. -/
theorem positionAt_lt {t : Lines} {cs : List Char} (h : Tabulates 0 cs t.toList) {o o' : Nat}
    (ho : IsBoundary cs o) (ho' : IsBoundary cs o') (hlt : o < o') :
    t.positionAt o < t.positionAt o' := by
  obtain ⟨i, line, before, after, p⟩ := exists_placed h o
  obtain ⟨i', line', before', after', p'⟩ := exists_placed h o'
  rw [p.positionAt_eq h, p'.positionAt_eq h, Position.lt_iff]
  rcases Nat.lt_trichotomy i i' with hi | rfl | hi
  · exact .inl hi
  · -- on one line the later offset has more characters before it
    obtain rfl : line = line' := Option.some.inj (p.get.symm.trans p'.get)
    obtain ⟨front, hfront, rfl⟩ := ho
    obtain ⟨front', hfront', rfl⟩ := ho'
    have hbytes := p.bytes_takeBytes h
    have hbytes' := p'.bytes_takeBytes h
    rw [takeBytes_bytes hfront] at hbytes
    rw [takeBytes_bytes hfront'] at hbytes'
    have hfirst : line.upTo (bytes front) <+: line.upTo (bytes front') :=
      prefix_of_bytes_le (takeBytes_isPrefix _ _) (takeBytes_isPrefix _ _) (by omega)
    refine .inr ⟨rfl, units_lt_of_isPrefix hfirst ?_⟩
    intro he
    rw [he] at hbytes
    omega
  · -- the line of the earlier offset does not start behind the later one
    have hnext : i' + 1 < Array.size t := by
      have := (Array.getElem?_eq_some_iff.1 p.get).1
      omega
    have hget : t[i' + 1]? = some t[i' + 1] := Array.getElem?_eq_getElem hnext
    have := p'.lt _ hget
    have := Lines.start_mono h hi hget p.get
    have := p.le
    omega

theorem positionAt_le {t : Lines} {cs : List Char} (h : Tabulates 0 cs t.toList) {o o' : Nat}
    (ho : IsBoundary cs o) (ho' : IsBoundary cs o') (hle : o ≤ o') :
    t.positionAt o ≤ t.positionAt o' := by
  rcases Nat.lt_or_eq_of_le hle with hlt | rfl
  · exact (positionAt_lt h ho ho' hlt).le
  · exact le_rfl

end Text

end ElementLens
