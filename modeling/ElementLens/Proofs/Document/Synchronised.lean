/-
An editor and the server hold the same text.

The server reads every range against the line table that the edit before left.
Whatever the ranges are, the offsets found in this way are boundaries in order,
so no edit fails, and the table always belongs to the text.

An editor (`EditorStep`) changes its own copy between two boundaries and sends
the positions they have in the copy at that moment. As long as no boundary lies
inside a line end, the server makes the same change:

* **`offsetsOf_isBoundary`** — the offsets of any range;
* **`editedText_of_step`** — one edit on both sides;
* **`runs_synchronised`** — whole runs.
-/
import ElementLens.Proofs.Text.RoundTrip

namespace ElementLens

open Text

/-- The line table of a document belongs to its text. -/
def Document.IsTabulated (d : Document) : Prop :=
  d.lines = Lines.ofChars d.text.toList

/-- The document after batches of edits, each with a version. -/
def Document.applyAll (d : Document) (batches : List (List TextEdit × Int)) : Document :=
  batches.foldl (fun d batch => d.apply batch.1 batch.2) d

/-- The position of an offset in a text. -/
def positionIn (text : String) (o : Nat) : Position :=
  (Lines.ofChars text.toList).positionAt o

/-- An editor changes its copy of a text and says how: it takes out what stands
between two boundaries, names their positions, and puts something else there.
The two boundaries do not lie inside line ends. -/
inductive EditorStep : String → TextEdit → String → Prop
  | whole (text newText : String) : EditorStep text ⟨none, newText⟩ newText
  | part (text before removed after newText : String) :
      text = before ++ removed ++ after →
      ¬ InsideBreak text.toList before.utf8ByteSize →
      ¬ InsideBreak text.toList (before ++ removed).utf8ByteSize →
      EditorStep text
        ⟨some ⟨positionIn text before.utf8ByteSize,
          positionIn text (before ++ removed).utf8ByteSize⟩, newText⟩
        (before ++ newText ++ after)

/-- Steps one after the other. -/
inductive EditorSteps : String → List TextEdit → String → Prop
  | nil (text : String) : EditorSteps text [] text
  | cons {text next final : String} {e : TextEdit} {edits : List TextEdit} :
      EditorStep text e next → EditorSteps next edits final → EditorSteps text (e :: edits) final

/-- Batches of steps one after the other. -/
inductive EditorRun : String → List (List TextEdit × Int) → String → Prop
  | nil (text : String) : EditorRun text [] text
  | cons {text next final : String} {edits : List TextEdit} {version : Int}
      {batches : List (List TextEdit × Int)} :
      EditorSteps text edits next → EditorRun next batches final →
      EditorRun text ((edits, version) :: batches) final

namespace Document

variable {d : Document}

/-! ### The line table -/

theorem isTabulated_ofText (uri : Uri) (version : Int) (text : String) :
    (ofText uri version text).IsTabulated := rfl

theorem IsTabulated.tabulates (h : d.IsTabulated) : Tabulates 0 d.text.toList d.lines.toList := by
  rw [h]
  exact tabulates_ofChars _

theorem IsTabulated.foldl_edit (h : d.IsTabulated) (edits : List TextEdit) :
    (edits.foldl edit d).IsTabulated := by
  induction edits generalizing d with
  | nil => exact h
  | cons e edits ih => exact ih (isTabulated_ofText _ _ _)

theorem IsTabulated.applyAll (h : d.IsTabulated) (batches : List (List TextEdit × Int)) :
    (d.applyAll batches).IsTabulated := by
  induction batches generalizing d with
  | nil => exact h
  | cons batch batches ih => exact ih (apply_lines d batch.1 batch.2 h)

/-! ### Offsets -/

theorem IsTabulated.offsetAt_isBoundary (h : d.IsTabulated) (p : Position) :
    IsBoundary d.text.toList (d.offsetAt p) := by
  rw [offsetAt]
  cases hline : d.lines[p.line]? with
  | none =>
    rw [offsetAt_of_no_line h.tabulates hline]
    exact ⟨_, List.prefix_refl _, rfl⟩
  | some line =>
    obtain ⟨front, hfront, hoffset⟩ := offsetAt_eq hline p.character
    obtain ⟨before, after, hl⟩ := h.tabulates.isLine (by rw [Array.getElem?_toList, hline])
    refine ⟨before ++ front, ?_, ?_⟩
    · rw [hl.text]
      exact (List.prefix_append_right_inj _).2 (hfront.part.trans (List.prefix_append _ _))
    · rw [show d.lines.offsetAt p = line.start + bytes front from hoffset, bytes_append,
        hl.start_eq, Nat.zero_add]

/-- The offsets of any range are boundaries in order. -/
theorem IsTabulated.offsetsOf_isBoundary (h : d.IsTabulated) (r : Span) :
    IsBoundary d.text.toList (d.offsetsOf r).1 ∧ IsBoundary d.text.toList (d.offsetsOf r).2
      ∧ (d.offsetsOf r).1 ≤ (d.offsetsOf r).2 ∧ (d.offsetsOf r).2 ≤ bytes d.text.toList := by
  have hstart := h.offsetAt_isBoundary r.start
  have hstop : IsBoundary d.text.toList (d.offsetsOf r).2 := by
    rcases Nat.le_total (d.offsetAt r.start) (d.offsetAt r.stop) with hle | hle
    · rw [offsetsOf, Nat.max_eq_right hle]
      exact h.offsetAt_isBoundary r.stop
    · rw [offsetsOf, Nat.max_eq_left hle]
      exact hstart
  exact ⟨hstart, hstop, Nat.le_max_left _ _, hstop.le_bytes⟩

theorem IsTabulated.offsetAt_positionAt (h : d.IsTabulated) {o : Nat}
    (hbound : IsBoundary d.text.toList o) (hbreak : ¬ InsideBreak d.text.toList o) :
    d.offsetAt (d.positionAt o) = o := by
  obtain ⟨front, hfront, rfl⟩ := hbound
  have hcut := takeBytes_bytes hfront
  rcases offsetAt_positionAt_cases h.tabulates (bytes front) with ⟨hinside, _⟩ | ⟨_, heq⟩
  · rw [hcut] at hinside
    exact absurd hinside hbreak
  · rw [hcut] at heq
    exact heq

/-! ### Runs -/

/-- The server makes the change that the editor made. -/
theorem editedText_of_step (h : d.IsTabulated) {e : TextEdit} {next : String}
    (hstep : EditorStep d.text e next) : d.editedText e = next := by
  cases hstep with
  | whole newText => rfl
  | part before removed after newText htext hstart hstop =>
    have hchars : d.text.toList = before.toList ++ (removed.toList ++ after.toList) := by
      rw [htext, String.toList_append, String.toList_append, List.append_assoc]
    have hchars' : d.text.toList = (before.toList ++ removed.toList) ++ after.toList := by
      rw [hchars, List.append_assoc]
    have hbytes : (before ++ removed).utf8ByteSize = bytes (before.toList ++ removed.toList) := by
      rw [← bytes_toList, String.toList_append]
    have position (o : Nat) : positionIn d.text o = d.positionAt o := by
      rw [positionIn, positionAt, h]
    -- both offsets come back from their positions
    have hfrom : d.offsetAt (positionIn d.text before.utf8ByteSize) = bytes before.toList := by
      rw [position, ← bytes_toList]
      rw [← bytes_toList] at hstart
      exact h.offsetAt_positionAt ⟨_, ⟨_, hchars.symm⟩, rfl⟩ hstart
    have hto : d.offsetAt (positionIn d.text (before ++ removed).utf8ByteSize)
        = bytes (before.toList ++ removed.toList) := by
      rw [position, hbytes]
      rw [hbytes] at hstop
      exact h.offsetAt_positionAt ⟨_, ⟨_, hchars'.symm⟩, rfl⟩ hstop
    have hle : bytes before.toList ≤ bytes (before.toList ++ removed.toList) :=
      bytes_le_of_isPrefix (List.prefix_append _ _)
    simp only [editedText, offsetsOf, hfrom, hto, Nat.max_eq_right hle]
    rw [spliceBytes, takeBytes_bytes ⟨_, hchars.symm⟩, hchars', dropBytes_bytes,
      ← String.toList_append, ← String.toList_append, String.ofList_toList]

theorem text_of_steps (h : d.IsTabulated) {edits : List TextEdit} {final : String}
    (hsteps : EditorSteps d.text edits final) : (edits.foldl edit d).text = final := by
  induction edits generalizing d with
  | nil =>
    cases hsteps
    rfl
  | cons e edits ih =>
    cases hsteps with
    | cons hstep hrest =>
      have hnext : (d.edit e).text = _ := editedText_of_step h hstep
      rw [← hnext] at hrest
      exact ih (isTabulated_ofText _ _ _) hrest

theorem text_of_run (h : d.IsTabulated) {batches : List (List TextEdit × Int)} {final : String}
    (hrun : EditorRun d.text batches final) : (d.applyAll batches).text = final := by
  induction batches generalizing d with
  | nil =>
    cases hrun
    rfl
  | cons batch batches ih =>
    cases hrun with
    | @cons _ next _ edits version _ hsteps hrest =>
      have hnext : (d.apply edits version).text = next := text_of_steps h hsteps
      rw [← hnext] at hrest
      exact ih (apply_lines d edits version h) hrest

/-- **An editor and the server stay synchronised.** In every document that
batches of edits lead to, before every single edit of a batch, the offsets of
any range are boundaries in order; the line table belongs to the text; and the
text is the one that the editor has. -/
theorem runs_synchronised (uri : Uri) (version : Int) (text : String)
    (batches : List (List TextEdit × Int)) :
    let d := (ofText uri version text).applyAll batches
    (∀ (edits : List TextEdit) (r : Span),
      let d' := edits.foldl edit d
      let (start, stop) := d'.offsetsOf r
      IsBoundary d'.text.toList start ∧ IsBoundary d'.text.toList stop
        ∧ start ≤ stop ∧ stop ≤ bytes d'.text.toList)
    ∧ d.lines = (ofText uri version d.text).lines
    ∧ ∀ final, EditorRun text batches final → d.text = final := by
  intro d
  have h : d.IsTabulated := (isTabulated_ofText uri version text).applyAll batches
  refine ⟨fun edits r => ?_, h, fun final hrun => ?_⟩
  · exact (h.foldl_edit edits).offsetsOf_isBoundary r
  · exact text_of_run (isTabulated_ofText uri version text) hrun

end Document

end ElementLens
