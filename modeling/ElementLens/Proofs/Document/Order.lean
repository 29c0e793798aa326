/-
Positions of a document are in the order of its offsets.

A later boundary has a later position. A later position has no earlier offset: on one
line the initial part that it belongs to is no shorter, and everything on a line lies
before the lines behind it. So whether a position is inside a span can be seen from the
offsets:

* **`Covers.mono`** — more code units need no shorter part of a line;
* **`offsetAt_mono`** — a later position has no earlier offset;
* **`Document.positions_in_order`** — positions, offsets and spans of a document.
-/
import ElementLens.Proofs.Text.Order
import ElementLens.Proofs.Text.RoundTrip
import Mathlib.Order.Monotone.Basic

namespace ElementLens

theorem Position.le_iff {a b : Position} :
    a ≤ b ↔ a.line < b.line ∨ (a.line = b.line ∧ a.character ≤ b.character) := by
  rw [← not_lt, Position.lt_iff]
  omega

namespace Text

theorem Covers.mono {body front front' : List Char} {n n' : Nat} (h : Covers body n front)
    (h' : Covers body n' front') (hle : n ≤ n') : front <+: front' := by
  rcases h'.reaches with hreaches | rfl
  · exact h.shortest front' h'.part (hle.trans hreaches)
  · exact h.part

section Table

variable {t : Lines} {cs : List Char} {p q : Position} {line : Line}

/-- An offset does not lie behind the body of the line of its position. -/
theorem offsetAt_le_of_line (hline : t[p.line]? = some line) :
    t.offsetAt p ≤ line.start + bytes line.body := by
  obtain ⟨front, hfront, hoffset⟩ := offsetAt_eq hline p.character
  rw [hoffset]
  exact Nat.add_le_add_left (bytes_le_of_isPrefix hfront.part) _

theorem start_le_offsetAt (hline : t[p.line]? = some line) : line.start ≤ t.offsetAt p := by
  obtain ⟨front, -, hoffset⟩ := offsetAt_eq hline p.character
  rw [hoffset]
  exact Nat.le_add_right _ _

/-- No position has an offset behind the text. -/
theorem offsetAt_le_bytes (h : Tabulates 0 cs t.toList) (p : Position) :
    t.offsetAt p ≤ bytes cs := by
  cases hline : t[p.line]? with
  | none => exact (offsetAt_of_no_line h hline).le
  | some line =>
    obtain ⟨before, after, hplace⟩ := h.isLine (by rw [Array.getElem?_toList, hline])
    have hbody := offsetAt_le_of_line hline
    have htext : bytes cs = bytes before + (bytes line.body + bytes (line.ending ++ after)) := by
      rw [hplace.text, bytes_append, bytes_append]
    have hstart := hplace.start_eq
    omega

/-- What is on a line lies before the lines behind it. -/
theorem offsetAt_le_start (h : Tabulates 0 cs t.toList) (hp : p.line < q.line)
    (hline : t[q.line]? = some line) : t.offsetAt p ≤ line.start := by
  have hsize : q.line < Array.size t := (Array.getElem?_eq_some_iff.1 hline).1
  have hget : t[p.line]? = some t[p.line] := Array.getElem?_eq_getElem (by omega)
  have hfirst := offsetAt_le_of_line hget
  rcases h.next (by rw [Array.getElem?_toList, hget]) with ⟨-, hnone⟩ | ⟨-, next, hnext, hstart⟩
  · -- it is not the last line
    rw [Array.getElem?_toList, Array.getElem?_eq_none_iff] at hnone
    omega
  · rw [Array.getElem?_toList] at hnext
    have hmono := Lines.start_mono h hp hnext hline
    rw [hstart, Line.stop] at hmono
    omega

/-- **A later position has no earlier offset.** -/
theorem offsetAt_mono (h : Tabulates 0 cs t.toList) : Monotone t.offsetAt := by
  intro p q hle
  cases hline : t[q.line]? with
  | none =>
    rw [offsetAt_of_no_line h hline]
    exact offsetAt_le_bytes h p
  | some line =>
    rcases Position.le_iff.1 hle with hlt | ⟨heq, hcharacter⟩
    · exact (offsetAt_le_start h hlt hline).trans (start_le_offsetAt hline)
    · obtain ⟨front, hfront, hp⟩ := offsetAt_eq (heq ▸ hline) p.character
      obtain ⟨front', hfront', hq⟩ := offsetAt_eq hline q.character
      rw [hp, hq]
      exact Nat.add_le_add_left (bytes_le_of_isPrefix (hfront.mono hfront' hcharacter)) _

/-- **Positions embed the order of the boundaries.** -/
theorem strictMonoOn_positionAt (h : Tabulates 0 cs t.toList) :
    StrictMonoOn t.positionAt {o | IsBoundary cs o} :=
  fun _ ho _ ho' hlt => positionAt_lt h ho ho' hlt

end Table

end Text

namespace Document

open Text

/-- **Positions embed the order of offsets.** A later boundary has a later position, also
if it lies between the two characters of a line end. A later position has no earlier
offset. So a span encloses the position of a boundary exactly if the boundary lies strictly
between the ends. Neither number of a position exceeds the length of the text, so a text
that is shorter than a bound has no position beyond it. -/
theorem positions_in_order (uri : Uri) (version : Int) (text : String) :
    let d := ofText uri version text
    let cs := text.toList
    (∀ a b, IsBoundary cs a → IsBoundary cs b → a < b →
      (d.positionAt a).compare (d.positionAt b) = .lt)
    ∧ (∀ p q : Position, p.compare q ≠ .gt → d.offsetAt p ≤ d.offsetAt q)
    ∧ (∀ a b o, IsBoundary cs a → IsBoundary cs b → IsBoundary cs o →
      ((d.spanOf a b).encloses (d.positionAt o) = true ↔ a < o ∧ o < b))
    ∧ ∀ o, (d.positionAt o).line ≤ bytes cs ∧ (d.positionAt o).character ≤ bytes cs := by
  intro d cs
  have h : Tabulates 0 cs d.lines.toList := tabulates_ofChars cs
  have hembeds : StrictMonoOn d.positionAt {o | IsBoundary cs o} := strictMonoOn_positionAt h
  refine ⟨fun a b ha hb hlt => hembeds ha hb hlt, fun p q hle => offsetAt_mono h hle, ?_,
    positionAt_le_bytes h⟩
  intro a b o ha hb ho
  rw [Span.encloses_iff]
  exact and_congr (hembeds.lt_iff_lt ha ho) (hembeds.lt_iff_lt ho hb)

/-- The span of a line end of two characters encloses the position between them. -/
example : ((ofText default 1 "é\r\n😀").spanOf 2 4).encloses
    ((ofText default 1 "é\r\n😀").positionAt 3) = true := by cbv

end Document

end ElementLens
