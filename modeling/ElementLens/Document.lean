/-
Text documents.

A document is a text under a URI with a version number. Its line table is
part of it, so that positions and offsets can be turned into each other
without walking over the whole text. Edits are applied in order, each to the
text that the one before left:

* **`Document.apply_text`** — an edit with a range replaces the text between
  the offsets of its two positions, an edit without one replaces all;
* **`Document.apply_lines`** — the line table always belongs to the text.
-/
import ElementLens.Text.Lines
import ElementLens.Uri.Basic

namespace ElementLens

/-- A change of a text: new text for a range, or for the whole. -/
structure TextEdit where
  range : Option Span
  newText : String
deriving Repr

/-- A text document. -/
structure Document where
  uri : Uri
  version : Int
  text : String
  lines : Text.Lines

namespace Document

/-- The document with the given text. -/
def ofText (uri : Uri) (version : Int) (text : String) : Document :=
  ⟨uri, version, text, Text.Lines.ofChars text.toList⟩

/-- The length of the text in UTF-16 code units. -/
def utf16Length (d : Document) : Nat :=
  Text.utf16Length d.text

/-- The position of a byte offset. -/
def positionAt (d : Document) (offset : Nat) : Position :=
  d.lines.positionAt offset

/-- The byte offset of a position. -/
def offsetAt (d : Document) (p : Position) : Nat :=
  d.lines.offsetAt p

/-- The span between two byte offsets. -/
def spanOf (d : Document) (start stop : Nat) : Span :=
  ⟨d.positionAt start, d.positionAt stop⟩

/-- The byte offsets of a range. A range whose end lies before its start is
empty at its start. -/
def offsetsOf (d : Document) (r : Span) : Nat × Nat :=
  (d.offsetAt r.start, max (d.offsetAt r.start) (d.offsetAt r.stop))

/-- The text after an edit. -/
def editedText (d : Document) (e : TextEdit) : String :=
  match e.range with
  | none => e.newText
  | some r =>
    let (start, stop) := d.offsetsOf r
    String.ofList (Text.spliceBytes start stop e.newText.toList d.text.toList)

/-- The document after one edit. -/
def edit (d : Document) (e : TextEdit) : Document :=
  ofText d.uri d.version (d.editedText e)

/-- The document after a batch of edits, with its new version. -/
def apply (d : Document) (edits : List TextEdit) (version : Int) : Document :=
  { edits.foldl edit d with version }

/-- The text after a batch of edits is the fold of the single edits. -/
theorem apply_text (d : Document) (edits : List TextEdit) (version : Int) :
    (d.apply edits version).text = (edits.foldl edit d).text := rfl

/-- Editing keeps the line table that belongs to the text. -/
theorem apply_lines (d : Document) (edits : List TextEdit) (version : Int)
    (h : d.lines = Text.Lines.ofChars d.text.toList) :
    (d.apply edits version).lines
      = Text.Lines.ofChars (d.apply edits version).text.toList := by
  show (edits.foldl edit d).lines = Text.Lines.ofChars (edits.foldl edit d).text.toList
  induction edits generalizing d with
  | nil => exact h
  | cons e edits ih => exact ih (d.edit e) rfl

end Document

end ElementLens
