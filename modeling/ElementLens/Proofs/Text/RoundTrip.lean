/-
Positions and offsets are each other's inverse.

Turning an offset into a position and back gives the last boundary that is not
behind the offset. The one exception are offsets inside a line end of two
characters: their positions lie behind the body of the line, so they come back
as the end of the body.

Turning a position into an offset and back keeps exactly those positions that a
text has: an existing line and the code units of an initial part of it. Any
other position moves to the next one of its line, to the end of the line, or to
the end of the text.

* **`offsetAt_positionAt_cases`** — offsets, there and back;
* **`positionAt_offsetAt_covers`** — positions on existing lines, there and
  back;
* **`Document.positions_round_trip`** — both for documents.
-/
import ElementLens.Document
import ElementLens.Proofs.Text.Place

namespace ElementLens.Text

/-- The columns of a line: the code units of its initial parts. -/
def IsColumn (body : List Char) (column : Nat) : Prop :=
  ∃ front, front <+: body ∧ units front = column

section Table

variable {t : Lines} {cs : List Char}

theorem offsetAt_positionAt_cases (h : Tabulates 0 cs t.toList) (o : Nat) :
    (InsideBreak cs (bytes (takeBytes o cs))
        ∧ t.offsetAt (t.positionAt o) = bytes (takeBytes o cs) - 1)
      ∨ (¬ InsideBreak cs (bytes (takeBytes o cs))
        ∧ t.offsetAt (t.positionAt o) = bytes (takeBytes o cs)) := by
  obtain ⟨i, line, before, after, p⟩ := exists_placed h o
  obtain ⟨front, hfront, hoffset⟩ := offsetAt_eq p.get (units (line.upTo o))
  rw [p.positionAt_eq h, hoffset, p.bytes_takeBytes h]
  rcases p.upTo_cases h with hbody | ⟨hcr, hending⟩
  · rw [hfront.eq_of_units hbody]
    exact .inr ⟨p.isLine.not_insideBreak hbody, rfl⟩
  · -- the column lies behind the body, which is covered whole
    have hlt : units line.body < units (line.upTo o) := by
      rw [hcr, units_append]
      exact Nat.lt_add_of_pos_right (by decide)
    have hbytes : bytes (line.upTo o) = bytes line.body + 1 := by
      rw [hcr, bytes_append]
      rfl
    rw [hfront.eq_of_lt hlt, hbytes]
    exact .inl ⟨p.isLine.insideBreak hending, by omega⟩

theorem positionAt_offsetAt_covers (h : Tabulates 0 cs t.toList) {p : Position} {line : Line}
    (hline : t[p.line]? = some line) :
    ∃ front, Covers line.body p.character front
      ∧ t.positionAt (t.offsetAt p) = ⟨p.line, units front⟩ := by
  obtain ⟨front, hfront, hoffset⟩ := offsetAt_eq hline p.character
  obtain ⟨before, after, hl⟩ := h.isLine (by rw [Array.getElem?_toList, hline])
  have placed := placed_of_isPrefix h hline hl hfront.part
  refine ⟨front, hfront, ?_⟩
  rw [hoffset, placed.positionAt_eq h,
    Line.upTo_bytes (hfront.part.trans (List.prefix_append _ _))]

theorem offsetAt_of_no_line (h : Tabulates 0 cs t.toList) {p : Position}
    (hline : t[p.line]? = none) : t.offsetAt p = bytes cs := by
  rw [Lines.offsetAt]
  simp only [hline]
  exact Lines.size_eq h

/-- Neither number of a position exceeds the length of the text. -/
theorem positionAt_le_bytes (h : Tabulates 0 cs t.toList) (o : Nat) :
    (t.positionAt o).line ≤ bytes cs ∧ (t.positionAt o).character ≤ bytes cs := by
  obtain ⟨i, line, before, after, p⟩ := exists_placed h o
  have hi : t.toList[i]? = some line := by rw [Array.getElem?_toList, p.get]
  have hcut := bytes_le_of_isPrefix (takeBytes_isPrefix o cs)
  have hunits := units_le_bytes (line.upTo o)
  have hindex := h.index_le hi
  rw [p.bytes_takeBytes h] at hcut
  rw [p.positionAt_eq h]
  constructor <;> simp only <;> omega

/-- The table and the plain recursion have the same lines. -/
theorem exists_line_of_body (h : Tabulates 0 cs t.toList) {i : Nat} {body : List Char}
    (hbody : (lineBodies cs)[i]? = some body) : ∃ line, t[i]? = some line ∧ line.body = body := by
  rw [← h.bodies, List.getElem?_map, Array.getElem?_toList] at hbody
  exact Option.map_eq_some_iff.1 hbody

theorem no_line_of_no_body (h : Tabulates 0 cs t.toList) {i : Nat}
    (hbody : (lineBodies cs)[i]? = none) : t[i]? = none := by
  rw [← h.bodies, List.getElem?_map, Array.getElem?_toList] at hbody
  exact Option.map_eq_none_iff.1 hbody

/-- Exactly the positions that a text has are kept. -/
theorem positionAt_offsetAt_eq_iff (h : Tabulates 0 cs t.toList) (p : Position) :
    t.positionAt (t.offsetAt p) = p
      ↔ ∃ body, (lineBodies cs)[p.line]? = some body ∧ IsColumn body p.character := by
  constructor
  · intro hp
    -- the line of the result exists, and its column is counted from a part of it
    obtain ⟨i, line, before, after, placed⟩ := exists_placed h (t.offsetAt p)
    rw [placed.positionAt_eq h] at hp
    obtain rfl : i = p.line := congrArg Position.line hp
    obtain ⟨front, hfront, hpos⟩ := positionAt_offsetAt_covers h placed.get
    rw [placed.positionAt_eq h, hp] at hpos
    refine ⟨line.body, ?_, front, hfront.part, (congrArg Position.character hpos).symm⟩
    rw [← h.bodies, List.getElem?_map, Array.getElem?_toList, placed.get]
    rfl
  · rintro ⟨body, hbody, part, hpart, hunits⟩
    obtain ⟨line, hline, rfl⟩ := exists_line_of_body h hbody
    obtain ⟨front, hfront, hpos⟩ := positionAt_offsetAt_covers h hline
    rw [← hunits] at hfront
    rw [hpos, hfront.eq_of_units hpart, hunits]

/-- A position between two columns moves to the next one. -/
theorem positionAt_offsetAt_of_isLeast (h : Tabulates 0 cs t.toList) {p : Position}
    {body : List Char} (hbody : (lineBodies cs)[p.line]? = some body)
    (hnot : ¬ IsColumn body p.character) {column : Nat}
    (hleast : IsLeast {u | IsColumn body u ∧ p.character < u} column) :
    t.positionAt (t.offsetAt p) = ⟨p.line, column⟩ := by
  obtain ⟨line, hline, rfl⟩ := exists_line_of_body h hbody
  obtain ⟨front, hfront, hpos⟩ := positionAt_offsetAt_covers h hline
  obtain ⟨⟨part, hpart, hunits⟩, hlt⟩ := hleast.1
  -- the part that gives the next column is long enough, so the covering one is, too
  have hreach : p.character ≤ units front := by
    rcases hfront.reaches with hle | hwhole
    · exact hle
    · have := units_le_of_isPrefix hpart
      rw [hwhole]
      omega
  have hne : p.character ≠ units front := fun he => hnot ⟨front, hfront.part, he.symm⟩
  have hle : column ≤ units front := hleast.2 ⟨⟨front, hfront.part, rfl⟩, by omega⟩
  have hge : units front ≤ units part :=
    units_le_of_isPrefix (hfront.shortest part hpart (by omega))
  rw [hpos, show units front = column by omega]

theorem positionAt_offsetAt_of_units_lt (h : Tabulates 0 cs t.toList) {p : Position}
    {body : List Char} (hbody : (lineBodies cs)[p.line]? = some body)
    (hlt : units body < p.character) :
    t.positionAt (t.offsetAt p) = ⟨p.line, units body⟩ := by
  obtain ⟨line, hline, rfl⟩ := exists_line_of_body h hbody
  obtain ⟨front, hfront, hpos⟩ := positionAt_offsetAt_covers h hline
  rw [hpos, hfront.eq_of_lt hlt]

end Table

end ElementLens.Text

namespace ElementLens.Document

open Text

/-- **Positions and offsets are each other's inverse**, as far as a text has
them. Neither number of a position exceeds the length of the text, so a text
that is shorter than a bound has no position beyond it. -/
theorem positions_round_trip (uri : Uri) (version : Int) (text : String) :
    let d := ofText uri version text
    let cs := text.toList
    (∀ o, ∃ o', IsGreatest {b | IsBoundary cs b ∧ b ≤ min o (bytes cs)} o'
      ∧ ((InsideBreak cs o' ∧ d.offsetAt (d.positionAt o) = o' - 1)
        ∨ (¬ InsideBreak cs o' ∧ d.offsetAt (d.positionAt o) = o')))
    ∧ (∀ p : Position,
      (d.positionAt (d.offsetAt p) = p
        ↔ ∃ body, (lineBodies cs)[p.line]? = some body ∧ IsColumn body p.character)
      ∧ (∀ body, (lineBodies cs)[p.line]? = some body → ¬ IsColumn body p.character →
        (∀ column, IsLeast {u | IsColumn body u ∧ p.character < u} column →
          d.positionAt (d.offsetAt p) = ⟨p.line, column⟩)
        ∧ (units body < p.character → d.positionAt (d.offsetAt p) = ⟨p.line, units body⟩))
      ∧ ((lineBodies cs)[p.line]? = none →
        d.positionAt (d.offsetAt p) = d.positionAt (bytes cs)))
    ∧ ∀ o, (d.positionAt o).line ≤ bytes cs ∧ (d.positionAt o).character ≤ bytes cs := by
  intro d cs
  have h : Tabulates 0 cs d.lines.toList := tabulates_ofChars cs
  refine ⟨fun o => ?_, fun p => ⟨positionAt_offsetAt_eq_iff h p, ?_, ?_⟩, positionAt_le_bytes h⟩
  · have hgreatest := isGreatest_takeBytes cs (min o (bytes cs))
    rw [takeBytes_min] at hgreatest
    exact ⟨_, hgreatest, offsetAt_positionAt_cases h o⟩
  · intro body hbody hnot
    exact ⟨fun column hleast => positionAt_offsetAt_of_isLeast h hbody hnot hleast,
      fun hlt => positionAt_offsetAt_of_units_lt h hbody hlt⟩
  · intro hbody
    show d.positionAt (d.lines.offsetAt p) = _
    rw [offsetAt_of_no_line h (no_line_of_no_body h hbody)]

end ElementLens.Document
