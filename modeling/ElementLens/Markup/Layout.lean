/-
Places in pieces of text.

Text in several pieces is read as one: the pieces are joined with nothing
between them. A layout knows where each piece starts in the joined text and
takes places back to the piece they lie in. A place at which several pieces
start, because some are empty, belongs to the last of them.

* **`Layout.locate`** — the piece of a place and the place in that piece;
* **`Layout.relative?`** — a range that lies within one piece.
-/
import ElementLens.Bisection
import ElementLens.Text.Units

namespace ElementLens.Markup

/-- Where the pieces start in the joined text, and how long they are, in
bytes. -/
structure Layout where
  pieces : Array (Nat × Nat)
deriving Repr

namespace Layout

/-- The layout of pieces of the given lengths. -/
def ofLengths (lengths : List Nat) : Layout :=
  ⟨(lengths.foldl (fun (done, start) n => (done.push (start, n), start + n))
    ((#[] : Array (Nat × Nat)), 0)).1⟩

/-- Whether a piece starts at or before a place of the joined text. -/
def startsUpTo (l : Layout) (offset index : Nat) : Bool :=
  match l.pieces[index]? with
  | none => false
  | some (start, _) => start ≤ offset

/-- The last piece that starts at or before a place of the joined text, and
the place counted from its start. -/
def locate (l : Layout) (offset : Nat) : Nat × Nat :=
  let index := bisect (l.startsUpTo offset) 0 l.pieces.size - 1
  let start := match l.pieces[index]? with
    | none => 0
    | some (start, _) => start
  (index, offset - start)

/-- A range of the joined text as a range of one piece, if it lies within
one. -/
def relative? (l : Layout) (start stop : Nat) : Option (Nat × Nat × Nat) :=
  let (index, inner) := l.locate start
  match l.pieces[index]? with
  | none => none
  | some (pieceStart, length) =>
    if pieceStart + length < stop then none
    else some (index, inner, inner + (stop - start))

end Layout

end ElementLens.Markup
