/-
What the line table says about its text.

`Tabulates start cs lines` derives a table line by line: a line is a body
without line ends, then one line end, then the rest of the text under the rest
of the table. The table of a text is derived in this way, and all that is known
about tables is read off the derivation:

* **`tabulates_ofChars`** — the table of a text tabulates it;
* **`Tabulates.bodies`** — the bodies are the lines of the text, as the plain
  recursion `lineBodies` gives them;
* **`Tabulates.isLine`** — where a line stands in the text;
* **`Tabulates.lineOf_eq`** — which line an offset belongs to.
-/
import ElementLens.Proofs.Text.Boundary
import ElementLens.Text.Lines

namespace ElementLens.Text

/-- The lines of a text without their ends. -/
def lineBodies : List Char → List (List Char)
  | [] => [[]]
  | '\r' :: '\n' :: cs => [] :: lineBodies cs
  | '\r' :: cs => [] :: lineBodies cs
  | '\n' :: cs => [] :: lineBodies cs
  | c :: cs => (lineBodies cs).modifyHead (c :: ·)

/-- An offset between the two characters of a line end. -/
def InsideBreak (cs : List Char) (o : Nat) : Prop :=
  ∃ front rest, cs = front ++ '\r' :: '\n' :: rest ∧ bytes front + 1 = o

/-- A text without line ends. -/
def IsPlain (cs : List Char) : Prop :=
  ∀ c ∈ cs, c ≠ '\r' ∧ c ≠ '\n'

/-- A complete line end in front of a text. -/
def IsBreak (ending rest : List Char) : Prop :=
  ending = ['\n'] ∨ ending = ['\r', '\n'] ∨ ending = ['\r'] ∧ rest.head? ≠ some '\n'

/-- The lines of a text of which the first character has the offset `start`. -/
inductive Tabulates : Nat → List Char → List Line → Prop
  | last (start : Nat) (body : List Char) :
      IsPlain body → Tabulates start body [⟨start, body, []⟩]
  | line (start : Nat) (body ending cs : List Char) (lines : List Line) :
      IsPlain body → IsBreak ending cs →
      Tabulates (start + bytes body + bytes ending) cs lines →
      Tabulates start (body ++ (ending ++ cs)) (⟨start, body, ending⟩ :: lines)

/-- The offset just after a line and its end. -/
def Line.stop (l : Line) : Nat :=
  l.start + bytes l.body + bytes l.ending

/-- Where a line stands: `before` and `after` are the texts around it. The line
end in front of the line is complete, and so is the one that ends it, unless it
is the last line. -/
structure IsLine (start : Nat) (cs : List Char) (line : Line) (before after : List Char) :
    Prop where
  text : cs = before ++ (line.body ++ (line.ending ++ after))
  start_eq : line.start = start + bytes before
  plain : IsPlain line.body
  whole : before = [] ∨ ∃ front ending, before = front ++ ending
    ∧ IsBreak ending (line.body ++ (line.ending ++ after))
  ends : (line.ending = [] ∧ after = []) ∨ IsBreak line.ending after

theorem IsBreak.bytes_pos {ending rest : List Char} (h : IsBreak ending rest) :
    0 < bytes ending := by
  rcases h with rfl | rfl | ⟨rfl, _⟩ <;> decide

/-- A proper part of a line end is nothing, or the first of two characters. -/
theorem IsBreak.eq_of_isPrefix {ending rest part : List Char} (h : IsBreak ending rest)
    (hpart : part <+: ending) (hne : part ≠ ending) :
    part = [] ∨ (part = ['\r'] ∧ ending = ['\r', '\n']) := by
  have single {c : Char} {part : List Char} (hpart : part <+: [c]) : part = [] ∨ part = [c] := by
    rcases List.prefix_cons_iff.1 hpart with hnil | ⟨tail, rfl, htail⟩
    · exact .inl hnil
    · exact .inr (by rw [List.prefix_nil.1 htail])
  rcases h with rfl | rfl | ⟨rfl, _⟩
  · exact .inl ((single hpart).resolve_right hne)
  · rcases List.prefix_cons_iff.1 hpart with hnil | ⟨tail, rfl, htail⟩
    · exact .inl hnil
    · rcases single htail with rfl | rfl
      · exact .inr ⟨rfl, rfl⟩
      · exact absurd rfl hne
  · exact .inl ((single hpart).resolve_right hne)

/-! ### The table of a text -/

theorem IsPlain.reverse_append {body : List Char} (h : IsPlain body) :
    IsPlain body.reverse := by
  intro c hc
  exact h c (List.mem_reverse.1 hc)

theorem bytes_reverse (cs : List Char) : bytes cs.reverse = bytes cs := by
  induction cs with
  | nil => rfl
  | cons c cs ih =>
    rw [List.reverse_cons, bytes_append, ih]
    simp [Nat.add_comm]

/-- The table in the making: the lines that are finished, then lines that
tabulate the line being read together with the rest. -/
theorem tabulates_collect {start size : Nat} {body : List Char} {done : Lines} (cs : List Char)
    (hplain : IsPlain body) (hsize : bytes body = size) :
    ∃ lines, (Lines.collect start size body done cs).toList = done.toList ++ lines
      ∧ Tabulates start (body.reverse ++ cs) lines := by
  have finished {start size : Nat} {body : List Char} {done t : Lines} {cs : List Char}
      (ending : List Char) (hplain : IsPlain body) (hsize : bytes body = size)
      (hbreak : IsBreak ending cs)
      (ih : ∃ lines, t.toList = (done.push ⟨start, body.reverse, ending⟩).toList ++ lines
        ∧ Tabulates (start + size + bytes ending) cs lines) :
      ∃ lines, t.toList = done.toList ++ lines
        ∧ Tabulates start (body.reverse ++ (ending ++ cs)) lines := by
    obtain ⟨lines, ht, hlines⟩ := ih
    refine ⟨⟨start, body.reverse, ending⟩ :: lines, by simpa using ht, ?_⟩
    refine .line _ _ _ _ _ hplain.reverse_append hbreak ?_
    rwa [bytes_reverse, hsize]
  have empty : IsPlain [] := by simp [IsPlain]
  fun_induction Lines.collect start size body done cs with
  | case1 start size body done =>
    refine ⟨[⟨start, body.reverse, []⟩], by simp, ?_⟩
    rw [List.append_nil]
    exact .last _ _ hplain.reverse_append
  | case2 start size body done cs ih =>
    exact finished ['\r', '\n'] hplain hsize (.inr (.inl rfl)) (ih empty rfl)
  | case3 start size body done cs hnext ih =>
    refine finished ['\r'] hplain hsize (.inr (.inr ⟨rfl, ?_⟩)) (ih empty rfl)
    intro hhead
    obtain ⟨rest, rfl⟩ := List.head?_eq_some_iff.1 hhead
    exact hnext rest rfl
  | case4 start size body done cs ih =>
    exact finished ['\n'] hplain hsize (.inl rfl) (ih empty rfl)
  | case5 start size body done c cs _ hcr hlf ih =>
    have hc : IsPlain (c :: body) := by
      intro x hx
      rcases List.mem_cons.1 hx with rfl | hx
      · exact ⟨hcr, hlf⟩
      · exact hplain x hx
    obtain ⟨lines, ht, hlines⟩ := ih hc (by rw [bytes_cons, hsize, Nat.add_comm])
    exact ⟨lines, ht, by simpa using hlines⟩

theorem tabulates_ofChars (cs : List Char) : Tabulates 0 cs (Lines.ofChars cs).toList := by
  have hnil : IsPlain [] := by simp [IsPlain]
  obtain ⟨lines, ht, hlines⟩ := @tabulates_collect 0 0 [] #[] cs hnil bytes_nil
  rw [Lines.ofChars, ht]
  exact hlines

/-! ### Reading the derivation -/

theorem lineBodies_plain {body rest : List Char} (h : IsPlain body) :
    lineBodies (body ++ rest) = (lineBodies rest).modifyHead (body ++ ·) := by
  induction body with
  | nil =>
    rw [List.nil_append]
    cases lineBodies rest <;> rfl
  | cons c body ih =>
    obtain ⟨hcr, hlf⟩ := h c List.mem_cons_self
    rw [List.cons_append, lineBodies]
    · rw [ih fun x hx => h x (List.mem_cons_of_mem c hx)]
      cases lineBodies rest <;> rfl
    · exact fun _ e => absurd e hcr
    · exact hcr
    · exact hlf

theorem lineBodies_break {ending rest : List Char} (h : IsBreak ending rest) :
    lineBodies (ending ++ rest) = [] :: lineBodies rest := by
  rcases h with rfl | rfl | ⟨rfl, hnext⟩
  · rfl
  · rfl
  · cases rest with
    | nil => rfl
    | cons c rest =>
      show lineBodies ('\r' :: c :: rest) = _
      rw [lineBodies]
      rintro cs' e
      simp [List.cons.inj e] at hnext

namespace Tabulates

variable {start : Nat} {cs : List Char} {lines : List Line}

theorem bodies (h : Tabulates start cs lines) : lines.map Line.body = lineBodies cs := by
  induction h with
  | last start body hplain =>
    have hbody := @lineBodies_plain body [] hplain
    rw [List.append_nil] at hbody
    rw [hbody]
    simp [lineBodies]
  | line start body ending cs lines hplain hbreak _ ih =>
    rw [lineBodies_plain hplain, lineBodies_break hbreak, List.map_cons, ih]
    simp

theorem start_le (h : Tabulates start cs lines) : ∀ line ∈ lines, start ≤ line.start := by
  induction h with
  | last start body _ => simp
  | line start body ending cs lines _ _ _ ih =>
    intro l hl
    rcases List.mem_cons.1 hl with rfl | hl
    · exact le_rfl
    · have := ih l hl
      omega

theorem sorted (h : Tabulates start cs lines) :
    lines.Pairwise fun a b => a.start < b.start := by
  induction h with
  | last start body _ => exact List.pairwise_singleton _ _
  | line start body ending cs lines _ hbreak hrest ih =>
    refine List.pairwise_cons.2 ⟨fun l hl => ?_, ih⟩
    have := hrest.start_le l hl
    have := hbreak.bytes_pos
    show start < l.start
    omega

/-- Every line end takes a byte, so indices grow no faster than starts. -/
theorem index_le (h : Tabulates start cs lines) {i : Nat} {line : Line}
    (hi : lines[i]? = some line) : start + i ≤ line.start := by
  induction h generalizing i with
  | last start body _ =>
    obtain ⟨rfl, rfl⟩ : i = 0 ∧ ⟨start, body, []⟩ = line := by
      cases i <;> simp_all
    exact le_rfl
  | line start body ending cs lines _ hbreak _ ih =>
    cases i with
    | zero =>
      obtain rfl : (⟨start, body, ending⟩ : Line) = line := by simpa using hi
      exact le_rfl
    | succ i =>
      have := ih (by simpa using hi)
      have := hbreak.bytes_pos
      omega

theorem isLine (h : Tabulates start cs lines) {i : Nat} {line : Line}
    (hi : lines[i]? = some line) : ∃ before after, IsLine start cs line before after := by
  induction h generalizing i with
  | last start body hplain =>
    obtain ⟨rfl, rfl⟩ : i = 0 ∧ ⟨start, body, []⟩ = line := by
      cases i <;> simp_all
    exact ⟨[], [], by simp, rfl, hplain, .inl rfl, .inl ⟨rfl, rfl⟩⟩
  | line start body ending cs lines hplain hbreak hrest ih =>
    cases i with
    | zero =>
      obtain rfl : (⟨start, body, ending⟩ : Line) = line := by simpa using hi
      exact ⟨[], cs, rfl, rfl, hplain, .inl rfl, .inr hbreak⟩
    | succ i =>
      obtain ⟨before, after, hl⟩ := ih (by simpa using hi)
      refine ⟨body ++ ending ++ before, after, ?_, ?_, hl.plain, .inr ?_, hl.ends⟩
      · rw [hl.text]
        simp only [List.append_assoc]
      · rw [hl.start_eq, bytes_append, bytes_append]
        omega
      · rcases hl.whole with rfl | ⟨front, e, rfl, he⟩
        · exact ⟨body, ending, by simp, hl.text ▸ hbreak⟩
        · exact ⟨body ++ ending ++ front, e, by simp, he⟩

/-- A line that has an end is followed by the line that starts there; a line
without one is the last. -/
theorem next (h : Tabulates start cs lines) {i : Nat} {line : Line}
    (hi : lines[i]? = some line) :
    (line.ending = [] ∧ lines[i + 1]? = none)
      ∨ (line.ending ≠ [] ∧ ∃ next, lines[i + 1]? = some next ∧ next.start = line.stop) := by
  induction h generalizing i with
  | last start body hplain =>
    obtain ⟨rfl, rfl⟩ : i = 0 ∧ ⟨start, body, []⟩ = line := by
      cases i <;> simp_all
    exact .inl ⟨rfl, rfl⟩
  | line start body ending cs lines hplain hbreak hrest ih =>
    cases i with
    | zero =>
      obtain rfl : (⟨start, body, ending⟩ : Line) = line := by simpa using hi
      refine .inr ⟨?_, ?_⟩
      · rintro rfl
        exact absurd hbreak.bytes_pos (lt_irrefl 0)
      · cases hrest with
        | last start body _ => exact ⟨_, rfl, rfl⟩
        | line start body ending cs lines _ _ _ => exact ⟨_, rfl, rfl⟩
    | succ i => simpa using ih (by simpa using hi)

/-- The text ends where its last line does. -/
theorem getLast?_stop (h : Tabulates start cs lines) :
    ∃ line, lines.getLast? = some line ∧ line.stop = start + bytes cs := by
  induction h with
  | last start body _ => exact ⟨_, rfl, rfl⟩
  | line start body ending cs lines _ _ hrest ih =>
    obtain ⟨line, hlast, hstop⟩ := ih
    refine ⟨line, ?_, ?_⟩
    · rw [List.getLast?_cons, hlast, Option.getD_some]
    · rw [hstop, bytes_append, bytes_append]
      omega

/-- Every offset belongs to a line: the last one that does not start behind
it. -/
theorem exists_line (h : Tabulates start cs lines) {o : Nat} (ho : start ≤ o) :
    ∃ i line, lines[i]? = some line ∧ line.start ≤ o
      ∧ ∀ next, lines[i + 1]? = some next → o < next.start := by
  induction h with
  | last start body _ => exact ⟨0, _, rfl, ho, by simp⟩
  | line start body ending cs lines _ _ hrest ih =>
    by_cases hnext : start + bytes body + bytes ending ≤ o
    · obtain ⟨i, line, hi, hle, hlt⟩ := ih hnext
      exact ⟨i + 1, line, by simpa using hi, hle, by simpa using hlt⟩
    · refine ⟨0, _, rfl, ho, fun next hn => ?_⟩
      have := hrest.start_le next (List.mem_of_getElem? (by simpa using hn))
      omega

end Tabulates

/-! ### Looking up lines -/

theorem Lines.start_mono {t : Lines} {cs : List Char} (h : Tabulates 0 cs t.toList) {j k : Nat}
    {a b : Line} (hjk : j ≤ k) (ha : t[j]? = some a) (hb : t[k]? = some b) :
    a.start ≤ b.start := by
  rcases Nat.lt_or_eq_of_le hjk with hjk | rfl
  · obtain ⟨hj, rfl⟩ := List.getElem?_eq_some_iff.1 (Array.getElem?_toList ▸ ha)
    obtain ⟨hk, rfl⟩ := List.getElem?_eq_some_iff.1 (Array.getElem?_toList ▸ hb)
    exact (List.pairwise_iff_getElem.1 h.sorted j k hj hk hjk).le
  · rw [Option.some.inj (ha.symm.trans hb)]

theorem Lines.lineOf_eq {t : Lines} {cs : List Char} (h : Tabulates 0 cs t.toList) {o i : Nat}
    {line : Line} (hi : t[i]? = some line) (hle : line.start ≤ o)
    (hlt : ∀ next, t[i + 1]? = some next → o < next.start) : t.lineOf o = i := by
  have hsize : i < Array.size t := (Array.getElem?_eq_some_iff.1 hi).1
  have hcount : bisect (t.startsUpTo o) 0 (Array.size t) = i + 1 := by
    refine bisect_eq (Nat.zero_le _) hsize (fun j hj => ?_) (fun j hij hj => ?_)
    · have hj' : j < Array.size t := by omega
      have ha : t[j]? = some t[j] := Array.getElem?_eq_getElem hj'
      have := start_mono h (Nat.le_of_lt_succ hj) ha hi
      simp only [startsUpTo, ha, decide_eq_true_eq]
      omega
    · have hi' : i + 1 < Array.size t := by omega
      have ha : t[j]? = some t[j] := Array.getElem?_eq_getElem hj
      have hn : t[i + 1]? = some t[i + 1] := Array.getElem?_eq_getElem hi'
      have := start_mono h hij hn ha
      have := hlt _ hn
      simp only [startsUpTo, ha, decide_eq_false_iff_not]
      omega
  rw [lineOf, hcount, Nat.add_sub_cancel]

theorem Lines.size_eq {t : Lines} {cs : List Char} (h : Tabulates 0 cs t.toList) :
    Lines.size t = bytes cs := by
  obtain ⟨line, hlast, hstop⟩ := h.getLast?_stop
  rw [Lines.size, ← Array.getLast?_toList, hlast]
  rw [Nat.zero_add] at hstop
  exact hstop

end ElementLens.Text
