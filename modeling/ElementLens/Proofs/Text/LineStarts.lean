/-
Where the lines of a text start.

A line starts behind every line end: behind a line feed, and behind a carriage return
that no line feed follows. Between two starts that follow each other stands one line with
its end and nothing else, so what is trimmed from it is that end:

* **`exists_start_iff`** — the starts as characters on both sides;
* **`mem_starts_iff`** — the starts as bytes;
* **`exists_text_of_start`** — the text from a start to the next one;
* **`Lines.starts_behind_breaks`** — all of it for the table of a text.
-/
import ElementLens.Proofs.Text.Bytes
import ElementLens.Proofs.Text.Place
import Mathlib.Data.List.DropRight

namespace ElementLens.Text

/-- Between two parts of a text a line ends. -/
def EndsLine (front rest : List Char) : Prop :=
  front.getLast? = some '\n' ∨ (front.getLast? = some '\r' ∧ rest.head? ≠ some '\n')

/-- In front of an offset a line ends: there is a line feed, or a carriage return without a
line feed behind it. -/
def BreakBefore (bs : List UInt8) (o : Nat) : Prop :=
  bs[o - 1]? = some 10 ∨ (bs[o - 1]? = some 13 ∧ bs[o]? ≠ some 10)

/-- A text without the line feeds and carriage returns at its end. -/
def trimBreaks (cs : List Char) : List Char :=
  cs.rdropWhile fun c => c = '\n' ∨ c = '\r'

/-! ### Characters around a start -/

theorem IsBreak.endsLine {ending rest : List Char} (h : IsBreak ending rest) (front : List Char) :
    EndsLine (front ++ ending) rest := by
  rcases h with rfl | rfl | ⟨rfl, hnext⟩
  · exact .inl (List.getLast?_concat ..)
  · exact .inl (by simp)
  · exact .inr ⟨List.getLast?_concat .., hnext⟩

/-- No line ends inside a line end. -/
theorem InsideBreak.not_endsLine {front rest : List Char}
    (h : InsideBreak (front ++ rest) (bytes front)) : ¬ EndsLine front rest := by
  obtain ⟨hlast, hhead⟩ := insideBreak_iff.1 h
  rintro (hfeed | ⟨-, hnext⟩)
  · rw [hlast] at hfeed
    exact absurd (Option.some.inj hfeed) (by decide)
  · exact hnext hhead

/-- No line ends behind a character that is no line end. -/
theorem IsPlain.not_endsLine {part : List Char} (h : IsPlain part) (hne : part ≠ [])
    (front rest : List Char) : ¬ EndsLine (front ++ part) rest := by
  rw [EndsLine, List.getLast?_append_of_ne_nil _ hne]
  rintro (hlast | ⟨hlast, -⟩)
  · exact (h _ (List.mem_of_getLast? hlast)).2 rfl
  · exact (h _ (List.mem_of_getLast? hlast)).1 rfl

section Table

variable {t : Lines} {cs : List Char} {o i : Nat}

/-- A line starts between two parts of a text exactly if a line ends there. -/
theorem exists_start_iff (h : Tabulates 0 cs t.toList) {front rest : List Char}
    (htext : cs = front ++ rest) (hne : front ≠ []) :
    (∃ line ∈ t, line.start = bytes front) ↔ EndsLine front rest := by
  constructor
  · rintro ⟨line, hmem, hstart⟩
    obtain ⟨i, hi⟩ := List.getElem?_of_mem (Array.mem_toList_iff.2 hmem)
    obtain ⟨before, after, hline⟩ := h.isLine hi
    -- the part in front is what stands before the line
    obtain rfl : before = front := by
      refine eq_of_bytes_eq ⟨_, hline.text.symm⟩ ⟨_, htext.symm⟩ ?_
      rw [← hstart, hline.start_eq, Nat.zero_add]
    obtain rfl : rest = _ := List.append_cancel_left (htext.symm.trans hline.text)
    rcases hline.whole with rfl | ⟨start, ending, rfl, hbreak⟩
    · exact absurd rfl hne
    · exact hbreak.endsLine start
  · intro hends
    obtain ⟨i, line, before, after, hplaced⟩ := exists_placed h (bytes front)
    have hfront : front = before ++ line.upTo (bytes front) := by
      rw [← hplaced.takeBytes_eq h, takeBytes_bytes ⟨rest, htext.symm⟩]
    refine ⟨line, Array.mem_of_getElem? hplaced.get, ?_⟩
    have hstart := hplaced.bytes_takeBytes h
    rw [takeBytes_bytes ⟨rest, htext.symm⟩] at hstart
    rcases hplaced.upTo_cases h with hbody | ⟨hcr, hending⟩
    · -- a part of the body that is not empty would end with one of its characters
      by_contra hlater
      have hpart : line.upTo (bytes front) ≠ [] := by
        intro hnil
        rw [hnil, bytes_nil, Nat.add_zero] at hstart
        exact hlater hstart.symm
      have hplain : IsPlain (line.upTo (bytes front)) := fun c hc =>
        hplaced.isLine.plain c (hbody.subset hc)
      rw [hfront] at hends
      exact hplain.not_endsLine hpart _ _ hends
    · have hinside := hplaced.isLine.insideBreak hending
      rw [hcr, bytes_append] at hstart
      rw [Nat.add_assoc] at hinside
      rw [← show bytes front = line.start + (bytes line.body + 1) from hstart, htext] at hinside
      exact absurd hends hinside.not_endsLine

/-! ### Bytes around a start -/

theorem toNat_lineFeed : '\n'.toNat = (10 : UInt8).toNat := rfl

theorem toNat_carriageReturn : '\r'.toNat = (13 : UInt8).toNat := rfl

/-- The byte in front of an offset. -/
theorem getElem?_encodeUtf8_pred_iff {c : Char} {b : UInt8} (hc : c.toNat = b.toNat)
    (hb : b.toNat < 128) (ho : 0 < o) :
    (encodeUtf8 cs)[o - 1]? = some b
      ↔ ∃ front rest, cs = front ++ rest ∧ front.getLast? = some c ∧ bytes front = o := by
  have hsize : c.utf8Size = 1 := utf8Size_of_lt (hc ▸ hb)
  rw [getElem?_encodeUtf8_eq_some_iff hc hb]
  constructor
  · rintro ⟨front, rest, rfl, hfront⟩
    refine ⟨front ++ [c], rest, by simp, List.getLast?_concat .., ?_⟩
    rw [bytes_append, bytes_cons, bytes_nil, hsize]
    omega
  · rintro ⟨front, rest, rfl, hlast, rfl⟩
    obtain ⟨front, rfl⟩ := List.getLast?_eq_some_iff.1 hlast
    refine ⟨front, rest, by simp, ?_⟩
    rw [bytes_append, bytes_cons, bytes_nil, hsize]
    rfl

/-- The byte behind a part of a text. -/
theorem getElem?_encodeUtf8_append_iff {c : Char} {b : UInt8} (hc : c.toNat = b.toNat)
    (hb : b.toNat < 128) (front rest : List Char) :
    (encodeUtf8 (front ++ rest))[bytes front]? = some b ↔ rest.head? = some c := by
  rw [getElem?_encodeUtf8_eq_some_iff hc hb, List.head?_eq_some_iff]
  constructor
  · rintro ⟨front', rest', htext, hbytes⟩
    obtain rfl := eq_of_bytes_eq (List.prefix_append front rest) ⟨_, htext.symm⟩ hbytes.symm
    exact ⟨rest', List.append_cancel_left htext⟩
  · rintro ⟨rest', rfl⟩
    exact ⟨front, rest', rfl, rfl⟩

theorem breakBefore_iff (ho : 0 < o) :
    BreakBefore (encodeUtf8 cs) o
      ↔ ∃ front rest, cs = front ++ rest ∧ bytes front = o ∧ EndsLine front rest := by
  rw [BreakBefore, getElem?_encodeUtf8_pred_iff toNat_lineFeed (by decide) ho,
    getElem?_encodeUtf8_pred_iff toNat_carriageReturn (by decide) ho]
  constructor
  · rintro (⟨front, rest, rfl, hlast, rfl⟩ | ⟨⟨front, rest, rfl, hlast, rfl⟩, hnext⟩)
    · exact ⟨front, rest, rfl, rfl, .inl hlast⟩
    · rw [Ne, getElem?_encodeUtf8_append_iff toNat_lineFeed (by decide)] at hnext
      exact ⟨front, rest, rfl, rfl, .inr ⟨hlast, hnext⟩⟩
  · rintro ⟨front, rest, rfl, rfl, hlast | ⟨hlast, hnext⟩⟩
    · exact .inl ⟨front, rest, rfl, hlast, rfl⟩
    · refine .inr ⟨⟨front, rest, rfl, hlast, rfl⟩, ?_⟩
      rwa [Ne, getElem?_encodeUtf8_append_iff toNat_lineFeed (by decide)]

theorem Tabulates.head?_start {start : Nat} {lines : List Line} (h : Tabulates start cs lines) :
    ∃ line, lines[0]? = some line ∧ line.start = start := by
  cases h with
  | last | line => exact ⟨_, rfl, rfl⟩

theorem mem_starts {t : Lines} : o ∈ t.starts ↔ ∃ line ∈ t, line.start = o :=
  Array.mem_map

theorem getElem?_starts {t : Lines} : t.starts[i]? = t[i]?.map Line.start :=
  Array.getElem?_map ..

theorem isBoundary_of_mem_starts (h : Tabulates 0 cs t.toList) (ho : o ∈ t.starts) :
    IsBoundary cs o := by
  obtain ⟨line, hmem, rfl⟩ := mem_starts.1 ho
  obtain ⟨i, hi⟩ := List.getElem?_of_mem (Array.mem_toList_iff.2 hmem)
  obtain ⟨before, after, hline⟩ := h.isLine hi
  exact ⟨before, ⟨_, hline.text.symm⟩, by rw [hline.start_eq, Nat.zero_add]⟩

/-- Behind the start of the text a line starts exactly behind a line end. -/
theorem mem_starts_iff (h : Tabulates 0 cs t.toList) (ho : 0 < o) :
    o ∈ t.starts ↔ BreakBefore (encodeUtf8 cs) o := by
  rw [breakBefore_iff ho]
  constructor
  · intro hmem
    obtain ⟨front, ⟨rest, rfl⟩, rfl⟩ := isBoundary_of_mem_starts h hmem
    have hne : front ≠ [] := by
      rintro rfl
      exact absurd ho (lt_irrefl 0)
    exact ⟨front, rest, rfl, rfl, (exists_start_iff h rfl hne).1 (mem_starts.1 hmem)⟩
  · rintro ⟨front, rest, htext, rfl, hends⟩
    have hne : front ≠ [] := by
      rintro rfl
      exact absurd ho (lt_irrefl 0)
    exact mem_starts.2 ((exists_start_iff h htext hne).2 hends)

end Table

/-! ### The text between two starts -/

theorem IsBreak.mem {ending rest : List Char} (h : IsBreak ending rest) {c : Char}
    (hc : c ∈ ending) : c = '\n' ∨ c = '\r' := by
  rcases h with rfl | rfl | ⟨rfl, _⟩ <;> simp at hc
  · exact .inl hc
  · exact hc.symm
  · exact .inr hc

theorem trimBreaks_append {body ending : List Char} (hbody : IsPlain body)
    (hending : ∀ c ∈ ending, c = '\n' ∨ c = '\r') : trimBreaks (body ++ ending) = body := by
  rw [trimBreaks, List.rdropWhile, List.reverse_append, List.dropWhile_append_of_pos,
    ← List.rdropWhile, List.rdropWhile_eq_self_iff]
  · intro hne
    have hlast := hbody _ (List.getLast_mem hne)
    simpa using hlast.symm
  · intro c hc
    simpa using hending c (List.mem_reverse.1 hc)

namespace IsLine

variable {cs : List Char} {line : Line} {before after : List Char}

theorem holds (h : IsLine 0 cs line before after) :
    Holds cs line.start line.stop (line.body ++ line.ending) := by
  have hstart : bytes before = line.start := by rw [h.start_eq, Nat.zero_add]
  refine ⟨before, after, ?_, hstart, ?_⟩
  · rw [h.text]
    simp only [List.append_assoc]
  · rw [hstart, bytes_append, Line.stop, Nat.add_assoc]

/-- What is trimmed from a line is its end. -/
theorem trimBreaks_eq (h : IsLine 0 cs line before after) :
    trimBreaks (line.body ++ line.ending) = line.body := by
  refine trimBreaks_append h.plain fun c hc => ?_
  rcases h.ends with ⟨hnil, -⟩ | hbreak
  · rw [hnil] at hc
    exact absurd hc List.not_mem_nil
  · exact hbreak.mem hc

end IsLine

section Table

variable {t : Lines} {cs : List Char} {i : Nat} {line : Line}

/-- A line stops where the next one starts, or where the text ends. -/
theorem stop_eq (h : Tabulates 0 cs t.toList) (hi : t[i]? = some line) :
    t.starts[i + 1]?.getD (bytes cs) = line.stop := by
  rw [← Array.getElem?_toList] at hi
  rw [getElem?_starts, ← Array.getElem?_toList]
  rcases h.next hi with ⟨hnil, hnone⟩ | ⟨-, next, hnext, hstart⟩
  · obtain ⟨before, after, hline⟩ := h.isLine hi
    rcases hline.ends with ⟨-, rfl⟩ | hbreak
    · rw [hnone, Option.map_none, Option.getD_none, hline.text, List.append_nil, bytes_append,
        bytes_append, Line.stop, hline.start_eq]
      omega
    · have := hbreak.bytes_pos
      rw [hnil] at this
      exact absurd this (lt_irrefl 0)
  · rw [hnext, Option.map_some, Option.getD_some, hstart]

theorem exists_line_of_start (h : Tabulates 0 cs t.toList) {start : Nat}
    (hi : t.starts[i]? = some start) :
    ∃ line before after, t[i]? = some line ∧ line.start = start ∧ IsLine 0 cs line before after := by
  obtain ⟨line, hline, hstart⟩ := Option.map_eq_some_iff.1 (getElem?_starts.symm.trans hi)
  obtain ⟨before, after, hplace⟩ := h.isLine (by rw [Array.getElem?_toList, hline])
  exact ⟨line, before, after, hline, hstart, hplace⟩

/-- From one start to the next one stands a line with its end. -/
theorem exists_line_between (h : Tabulates 0 cs t.toList) {start stop : Nat}
    (hi : t.starts[i]? = some start) (hnext : t.starts[i + 1]? = some stop) :
    ∃ body ending, Holds cs start stop (body ++ ending) ∧ IsPlain body
      ∧ (ending = ['\n'] ∨ ending = ['\r'] ∨ ending = ['\r', '\n'])
      ∧ trimBreaks (body ++ ending) = body := by
  obtain ⟨line, before, after, hline, rfl, hplace⟩ := exists_line_of_start h hi
  have hstop := stop_eq h hline
  rw [hnext, Option.getD_some] at hstop
  refine ⟨line.body, line.ending, hstop ▸ hplace.holds, hplace.plain, ?_, hplace.trimBreaks_eq⟩
  -- only the last line has no end
  have hne : line.ending ≠ [] := by
    rcases h.next (by rw [Array.getElem?_toList, hline]) with ⟨-, hnone⟩ | ⟨hne, -⟩
    · rw [getElem?_starts, ← Array.getElem?_toList, hnone] at hnext
      exact absurd hnext (by simp)
    · exact hne
  rcases hplace.ends.resolve_left fun hlast => hne hlast.1 with hfeed | hboth | ⟨hreturn, -⟩
  · exact .inl hfeed
  · exact .inr (.inr hboth)
  · exact .inr (.inl hreturn)

/-- The offset of a position is found in its line without what is trimmed from it. -/
theorem exists_line_of_position (h : Tabulates 0 cs t.toList) {p : Position} {start : Nat}
    (hi : t.starts[p.line]? = some start) :
    ∃ line, Holds cs start (t.starts[p.line + 1]?.getD (bytes cs)) line
      ∧ t.offsetAt p = Lines.bytesBefore p.character start (trimBreaks line) := by
  obtain ⟨line, before, after, hline, rfl, hplace⟩ := exists_line_of_start h hi
  refine ⟨line.body ++ line.ending, stop_eq h hline ▸ hplace.holds, ?_⟩
  rw [hplace.trimBreaks_eq, Lines.offsetAt]
  simp only [hline]

end Table

/-- **Where the lines of a text start.** The starts rise from the start of the text. Any
other offset is one exactly if there is a line feed in front of it, or a carriage return
that no line feed follows. All are boundaries. From one start to the next one stands a text
without line ends and then one line end, which is what the look-up of an offset trims from
the line. -/
theorem Lines.starts_behind_breaks (text : String) :
    let cs := text.toList
    let t := ofChars cs
    t.starts[0]? = some 0
      ∧ t.starts.toList.Pairwise (· < ·)
      ∧ (∀ o, 0 < o →
        (o ∈ t.starts ↔ o ≤ text.utf8ByteSize ∧ BreakBefore (encodeUtf8 cs) o))
      ∧ (∀ o ∈ t.starts, IsBoundary cs o)
      ∧ (∀ i start stop, t.starts[i]? = some start → t.starts[i + 1]? = some stop →
        ∃ body ending, Holds cs start stop (body ++ ending) ∧ IsPlain body
          ∧ (ending = ['\n'] ∨ ending = ['\r'] ∨ ending = ['\r', '\n'])
          ∧ trimBreaks (body ++ ending) = body)
      ∧ ∀ p start, t.starts[p.line]? = some start →
        ∃ line, Holds cs start (t.starts[p.line + 1]?.getD text.utf8ByteSize) line
          ∧ t.offsetAt p = bytesBefore p.character start (trimBreaks line) := by
  intro cs t
  have h : Tabulates 0 cs t.toList := tabulates_ofChars cs
  rw [← bytes_toList]
  refine ⟨?_, ?_, fun o ho => ?_, fun o => isBoundary_of_mem_starts h,
    fun i start stop => exists_line_between h, fun p start => exists_line_of_position h⟩
  · obtain ⟨line, hline, hstart⟩ := h.head?_start
    rw [getElem?_starts, ← Array.getElem?_toList, hline, Option.map_some, hstart]
  · rw [starts, Array.toList_map, List.pairwise_map]
    exact h.sorted
  · rw [mem_starts_iff h ho, iff_and_self]
    intro hbreak
    exact (isBoundary_of_mem_starts h ((mem_starts_iff h ho).2 hbreak)).le_bytes

/-- A carriage return ends a line also in front of a line end of two characters. -/
theorem Lines.starts_behind_breaks_returns :
    (ofChars "é\r\r\n\n\r".toList).starts = #[0, 3, 5, 6, 7]
      ∧ ∃ body ending, Holds "é\r\r\n\n\r".toList 3 5 (body ++ ending) ∧ IsPlain body
        ∧ (ending = ['\n'] ∨ ending = ['\r'] ∨ ending = ['\r', '\n'])
        ∧ trimBreaks (body ++ ending) = body := by
  have hstarts : (ofChars "é\r\r\n\n\r".toList).starts = #[0, 3, 5, 6, 7] := by decide +kernel
  have hstart : (ofChars "é\r\r\n\n\r".toList).starts[1]? = some 3 := by rw [hstarts]; rfl
  have hstop : (ofChars "é\r\r\n\n\r".toList).starts[1 + 1]? = some 5 := by rw [hstarts]; rfl
  obtain ⟨-, -, -, -, hbetween, -⟩ := starts_behind_breaks "é\r\r\n\n\r"
  exact ⟨hstarts, hbetween 1 3 5 hstart hstop⟩

end ElementLens.Text
