/-
The place of an offset and the offset of a position.

An offset belongs to a line (`Placed`); its position is the index of that line
and the code units of what stands before it there. A position belongs to the
shortest initial part of its line that has as many code units (`Covers`).

* **`Placed.positionAt_eq`** — the position of an offset;
* **`Placed.takeBytes_eq`** — what stands before an offset;
* **`IsLine.not_insideBreak`**, **`IsLine.insideBreak`** — only an offset behind
  the body of its line lies inside a line end;
* **`offsetAt_eq`** — the offset of a position.
-/
import ElementLens.Proofs.Text.LineTable
import Mathlib.Data.List.Basic

namespace ElementLens.Text

/-! ### From offsets to positions -/

/-- The characters of a line before an offset. -/
def Line.upTo (line : Line) (o : Nat) : List Char :=
  takeBytes (o - line.start) (line.body ++ line.ending)

/-- An offset belongs to a line of a text: it is not before the line, and it is
before the next one. -/
structure Placed (t : Lines) (cs : List Char) (o i : Nat) (line : Line)
    (before after : List Char) : Prop where
  get : t[i]? = some line
  isLine : IsLine 0 cs line before after
  le : line.start ≤ o
  lt : ∀ next, t[i + 1]? = some next → o < next.start

theorem exists_placed {t : Lines} {cs : List Char} (h : Tabulates 0 cs t.toList) (o : Nat) :
    ∃ i line before after, Placed t cs o i line before after := by
  obtain ⟨i, line, hi, hle, hlt⟩ := h.exists_line (Nat.zero_le o)
  obtain ⟨before, after, hline⟩ := h.isLine hi
  rw [Array.getElem?_toList] at hi hlt
  exact ⟨i, line, before, after, hi, hline, hle, hlt⟩

theorem unitsWithin_eq (n acc : Nat) (cs : List Char) :
    Lines.unitsWithin n acc cs = acc + units (takeBytes n cs) := by
  induction cs generalizing n acc with
  | nil => rfl
  | cons c cs ih =>
    rw [Lines.unitsWithin, takeBytes_cons]
    split
    · rw [ih, units_cons, Nat.add_assoc]
    · rfl

namespace Placed

variable {t : Lines} {cs : List Char} {o i : Nat} {line : Line} {before after : List Char}

theorem positionAt_eq (p : Placed t cs o i line before after) (h : Tabulates 0 cs t.toList) :
    t.positionAt o = ⟨i, units (line.upTo o)⟩ := by
  rw [Lines.positionAt, Lines.lineOf_eq h p.get p.le p.lt]
  simp only [p.get]
  rw [unitsWithin_eq, Nat.zero_add]
  rfl

/-- The last line ends the text; any other is left before its end. -/
theorem last_or_lt (p : Placed t cs o i line before after) (h : Tabulates 0 cs t.toList) :
    (line.ending = [] ∧ after = [])
      ∨ (IsBreak line.ending after ∧ o - line.start < bytes (line.body ++ line.ending)) := by
  have hi : t.toList[i]? = some line := by rw [Array.getElem?_toList, p.get]
  rcases p.isLine.ends with hlast | hbreak
  · exact .inl hlast
  · refine .inr ⟨hbreak, ?_⟩
    rcases h.next hi with ⟨hnil, _⟩ | ⟨_, next, hnext, hstart⟩
    · have := hbreak.bytes_pos
      rw [hnil] at this
      exact absurd this (lt_irrefl 0)
    · rw [Array.getElem?_toList] at hnext
      have := p.lt next hnext
      have := p.le
      rw [hstart, Line.stop] at *
      rw [bytes_append]
      omega

theorem takeBytes_eq (p : Placed t cs o i line before after) (h : Tabulates 0 cs t.toList) :
    takeBytes o cs = before ++ line.upTo o := by
  have hstart : o = bytes before + (o - line.start) := by
    have := p.le
    have := p.isLine.start_eq
    omega
  have htext : cs = before ++ (line.body ++ line.ending ++ after) := by
    rw [p.isLine.text, List.append_assoc]
  rw [hstart, htext, takeBytes_append, ← hstart, Line.upTo]
  rcases p.last_or_lt h with ⟨_, rfl⟩ | ⟨_, hlt⟩
  · rw [List.append_nil]
  · rw [takeBytes_append_left hlt]

theorem bytes_takeBytes (p : Placed t cs o i line before after) (h : Tabulates 0 cs t.toList) :
    bytes (takeBytes o cs) = line.start + bytes (line.upTo o) := by
  rw [p.takeBytes_eq h, bytes_append, p.isLine.start_eq, Nat.zero_add]

/-- Before an offset stands a part of the body of its line, or the body and the
first of two characters of the line end. -/
theorem upTo_cases (p : Placed t cs o i line before after) (h : Tabulates 0 cs t.toList) :
    line.upTo o <+: line.body
      ∨ (line.upTo o = line.body ++ ['\r'] ∧ line.ending = ['\r', '\n']) := by
  have hfirst : line.upTo o <+: line.body ++ line.ending := takeBytes_isPrefix _ _
  rcases p.last_or_lt h with ⟨hnil, _⟩ | ⟨hbreak, hlt⟩
  · rw [hnil, List.append_nil] at hfirst
    exact .inl hfirst
  rcases List.prefix_or_prefix_of_prefix hfirst (List.prefix_append _ _) with hbody | hrest
  · exact .inl hbody
  obtain ⟨part, hpart⟩ := hrest
  rw [← hpart] at hfirst ⊢
  have hending : part <+: line.ending := (List.prefix_append_right_inj _).1 hfirst
  -- the line end is not complete: that leaves nothing of it, or half of two
  have hne : part ≠ line.ending := by
    intro he
    have := bytes_takeBytes_le (o - line.start) (line.body ++ line.ending)
    rw [← Line.upTo, ← hpart, he] at this
    omega
  rcases hbreak.eq_of_isPrefix hending hne with rfl | ⟨rfl, he⟩
  · rw [List.append_nil]
    exact .inl (List.prefix_refl _)
  · exact .inr ⟨rfl, he⟩

end Placed

theorem Line.upTo_bytes {line : Line} {front : List Char}
    (h : front <+: line.body ++ line.ending) : line.upTo (line.start + bytes front) = front := by
  rw [Line.upTo, Nat.add_sub_cancel_left, takeBytes_bytes h]

/-- An offset within the body of a line belongs to that line. -/
theorem placed_of_isPrefix {t : Lines} {cs : List Char} (h : Tabulates 0 cs t.toList) {i : Nat}
    {line : Line} {before after : List Char} (hi : t[i]? = some line)
    (hline : IsLine 0 cs line before after) {front : List Char} (hfront : front <+: line.body) :
    Placed t cs (line.start + bytes front) i line before after := by
  refine ⟨hi, hline, Nat.le_add_right _ _, fun next hnext => ?_⟩
  rw [← Array.getElem?_toList] at hi hnext
  rcases h.next hi with ⟨_, hnone⟩ | ⟨hne, next', hnext', hstart⟩
  · rw [hnone] at hnext
    exact absurd hnext (by simp)
  · obtain rfl : next' = next := Option.some.inj (hnext'.symm.trans hnext)
    have hpos : bytes line.ending ≠ 0 := fun he => hne (bytes_eq_zero he)
    have := bytes_le_of_isPrefix hfront
    rw [hstart, Line.stop]
    omega

/-! ### Line ends of two characters -/

/-- A boundary is inside a line end if the characters on its two sides are the
two characters of one. -/
theorem insideBreak_iff {front rest : List Char} :
    InsideBreak (front ++ rest) (bytes front)
      ↔ front.getLast? = some '\r' ∧ rest.head? = some '\n' := by
  constructor
  · rintro ⟨x, y, htext, hbytes⟩
    have htext' : front ++ rest = x ++ ['\r'] ++ '\n' :: y := by
      rw [htext, List.append_assoc]
      rfl
    have hfront : front = x ++ ['\r'] := by
      refine eq_of_bytes_eq (List.prefix_append front rest) ⟨_, htext'.symm⟩ ?_
      rw [bytes_append, ← hbytes]
      rfl
    rw [hfront] at htext' ⊢
    rw [List.append_cancel_left htext', List.getLast?_concat]
    exact ⟨rfl, rfl⟩
  · rintro ⟨hlast, hhead⟩
    obtain ⟨x, rfl⟩ := List.getLast?_eq_some_iff.1 hlast
    obtain ⟨y, rfl⟩ := List.head?_eq_some_iff.1 hhead
    refine ⟨x, y, by rw [List.append_assoc]; rfl, ?_⟩
    rw [bytes_append]
    rfl

/-- The ends of a text without line ends are not inside one. -/
theorem Holds.not_insideBreak {cs word : List Char} {start stop : Nat}
    (h : Holds cs start stop word) (hplain : IsPlain word) (hne : word ≠ []) :
    ¬ InsideBreak cs start ∧ ¬ InsideBreak cs stop := by
  obtain ⟨before, after, rfl, rfl, rfl⟩ := h
  constructor
  · rw [List.append_assoc, insideBreak_iff]
    rintro ⟨_, hhead⟩
    rw [List.head?_append_of_ne_nil _ hne] at hhead
    exact (hplain _ (List.mem_of_head? hhead)).2 rfl
  · rw [← bytes_append, insideBreak_iff]
    rintro ⟨hlast, _⟩
    rw [List.getLast?_append_of_ne_nil _ hne] at hlast
    exact (hplain _ (List.mem_of_getLast? hlast)).1 rfl

namespace IsLine

variable {cs : List Char} {line : Line} {before after : List Char}

/-- An offset within the body of a line is not inside a line end. -/
theorem not_insideBreak (h : IsLine 0 cs line before after) {front : List Char}
    (hfront : front <+: line.body) : ¬ InsideBreak cs (line.start + bytes front) := by
  obtain ⟨tail, htail⟩ := hfront
  have hcs : cs = (before ++ front) ++ (tail ++ (line.ending ++ after)) := by
    rw [h.text, ← htail]
    simp only [List.append_assoc]
  rw [h.start_eq, Nat.zero_add, ← bytes_append, hcs, insideBreak_iff]
  rintro ⟨hlast, hhead⟩
  by_cases hnil : front = []
  · -- the line end in front of the line would not be complete
    subst hnil
    rw [List.append_nil] at hlast
    rw [List.nil_append] at htail
    rcases h.whole with rfl | ⟨f, e, rfl, he⟩
    · simp at hlast
    · rcases he with rfl | rfl | ⟨rfl, hnot⟩
      · simp at hlast
      · simp at hlast
      · exact hnot (htail ▸ hhead)
  · -- the body would hold the first of the two characters
    rw [List.getLast?_append_of_ne_nil _ hnil] at hlast
    have hbody : '\r' ∈ line.body := htail ▸ List.mem_append_left _ (List.mem_of_getLast? hlast)
    exact (h.plain _ hbody).1 rfl

theorem insideBreak (h : IsLine 0 cs line before after) (he : line.ending = ['\r', '\n']) :
    InsideBreak cs (line.start + bytes line.body + 1) := by
  refine ⟨before ++ line.body, after, ?_, ?_⟩
  · rw [h.text, he, List.append_assoc]
    rfl
  · rw [bytes_append, h.start_eq, Nat.zero_add]

end IsLine

/-! ### From positions to offsets -/

/-- The shortest initial part of a line with at least `n` code units, or all of
the line if it has fewer. -/
structure Covers (body : List Char) (n : Nat) (front : List Char) : Prop where
  part : front <+: body
  shortest : ∀ other, other <+: body → n ≤ units other → front <+: other
  reaches : n ≤ units front ∨ front = body

theorem exists_covers (body : List Char) (n acc : Nat) :
    ∃ front, Covers body n front ∧ Lines.bytesBefore n acc body = acc + bytes front := by
  induction body generalizing n acc with
  | nil => exact ⟨[], ⟨List.nil_prefix, fun _ _ _ => List.nil_prefix, .inr rfl⟩, rfl⟩
  | cons c body ih =>
    rw [Lines.bytesBefore]
    by_cases hn : n = 0
    · subst hn
      exact ⟨[], ⟨List.nil_prefix, fun _ _ _ => List.nil_prefix, .inl le_rfl⟩, rfl⟩
    · rw [if_neg hn]
      obtain ⟨front, hfront, hbytes⟩ := ih (n - unitsOf c) (acc + c.utf8Size)
      refine ⟨c :: front, ⟨(List.prefix_cons_inj c).2 hfront.part, ?_, ?_⟩, ?_⟩
      · intro other hother hle
        rcases List.prefix_cons_iff.1 hother with rfl | ⟨other, rfl, hrest⟩
        · exact absurd (Nat.le_zero.1 hle) hn
        · rw [units_cons] at hle
          exact (List.prefix_cons_inj c).2 (hfront.shortest other hrest (by omega))
      · rcases hfront.reaches with hle | rfl
        · rw [units_cons]
          exact .inl (by omega)
        · exact .inr rfl
      · rw [hbytes, bytes_cons]
        omega

namespace Covers

variable {body front part : List Char} {n : Nat}

/-- A column of a line is covered by the part it was counted from. -/
theorem eq_of_units (h : Covers body (units part) front) (hpart : part <+: body) :
    front = part := by
  have hle : front <+: part := h.shortest part hpart le_rfl
  rcases h.reaches with hunits | rfl
  · exact eq_of_units_eq h.part hpart (Nat.le_antisymm (units_le_of_isPrefix hle) hunits)
  · exact hle.eq_of_length (Nat.le_antisymm hle.length_le hpart.length_le)

theorem eq_of_lt (h : Covers body n front) (hn : units body < n) : front = body := by
  rcases h.reaches with hle | he
  · have := units_le_of_isPrefix h.part
    omega
  · exact he

end Covers

theorem offsetAt_eq {t : Lines} {i : Nat} {line : Line} (h : t[i]? = some line) (n : Nat) :
    ∃ front, Covers line.body n front ∧ t.offsetAt ⟨i, n⟩ = line.start + bytes front := by
  rw [Lines.offsetAt]
  simp only [h]
  exact exists_covers line.body n line.start

end ElementLens.Text
